import QueryPlan.Proofs.FuseJoins.Run
import QueryPlan.Proofs.Selected

/-!
The output of a plan after fusing joins. Where no two predicates compare a common column,
a fused plan has the statistics of the plan with what it has taken from above selected on
top. At the root nothing is taken from above, so the estimate there does not change.
-/

namespace QueryPlan.FuseJoins

open Planner Plan Statistics

theorem select_turned {d t : Statistics} {predicate : Predicate} {s : Statistics}
    (h : d.select (turned predicate s) = .ok t) : d.select predicate = .ok t := by
  unfold turned at h
  split at h
  · exact h
  · rw [← predicate.swapped_swapped]
    exact select_swapped h

/-- Where nothing comes from above, nothing is taken from there. -/
theorem eq_of_landed_nil {s t : Statistics} {g : Floating}
    (h : s.selectAll (Floating.landed [] g) = .ok t) : s = t :=
  Except.ok.inj h

namespace Fused

variable {n m : Nat} {p q : Plan} {f g : Floating} {s t : Statistics}

theorem estimated_of_landed_nil (h : Fused n p [] m q g) (hp : p.Estimated s)
    (hall : ∀ t, q.Estimated t → s.selectAll (Floating.landed [] g) = .ok t) : q.Estimated s := by
  obtain ⟨t, hq⟩ := h.known hp
  rwa [eq_of_landed_nil (hall t hq)]

theorem selectAll_landed (h : Fused n p f m q g) (hp : p.Estimated s) (hq : q.Estimated t)
    (ha : f.Apart p.ids) (hc : Covered p f) (hd : p.DistinctColumns)
    (hi : p.Independent f.predicates) :
    s.selectAll (f.landed g) = .ok t := by
  induction h generalizing s t with
  | scan => rw [Floating.landed_self, hp.unique hq, selectAll_nil]
  | valued _ input added ih =>
      rw [ids_unary] at ha
      cases hp with
      | select _ hx he =>
          obtain ⟨u, hu⟩ := input.known hx
          have hv := added.estimate_unary hu hq
          refine selectAll_of_last (hi.own Floating.landed_sublist) he ?_
          exact selectAll_concat.mpr ⟨u, ih hx hu ha.input hc hd.unary hi.input, hv⟩
  | kept input found added ih =>
      rw [ids_unary] at ha
      obtain ⟨rfl, _⟩ := Floating.back_of_some (input.sublist ha.add) ha.not_mem found
      cases hp with
      | select _ hx he =>
          obtain ⟨u, hu⟩ := input.known hx
          have hv := added.estimate_unary hu hq
          have hxu := ih hx hu ha.add (hc.select (hx.covered_of_select he)) hd.unary hi.select
          rw [Floating.landed_kept ha.not_mem] at hxu
          refine selectAll_of_last (hi.own Floating.landed_sublist) he ?_
          exact selectAll_concat.mpr ⟨u, hxu, hv⟩
  | gone input gone ih =>
      rw [ids_unary] at ha
      have hf := Floating.back_of_none (input.sublist ha.add) ha.not_mem gone
      cases hp with
      | select _ hx he =>
          have hxt := ih hx hq ha.add (hc.select (hx.covered_of_select he)) hd.unary hi.select
          rw [Floating.landed_gone ha.not_mem hf] at hxt
          exact selectAll_of_last (hi.own Floating.landed_sublist) he hxt
  | project input added ih =>
      rw [ids_unary] at ha
      cases hp with
      | project _ hx he =>
          obtain ⟨u, hu⟩ := input.known hx
          have hv := added.estimate_unary hu hq
          obtain ⟨_, rfl⟩ := project_eq_ok.mp he
          obtain ⟨_, rfl⟩ := project_eq_ok.mp hv
          refine selectAll_restrict (ih hx hu ha.input hc.project hd.unary hi.input) ?_
          intro predicate hm c hcp
          have hs := hc predicate (Floating.landed_subset hm) hcp
          exact of_decide_eq_true (List.mem_filter.mp hs).2
  | unlinked _ _ _ left right added ihl ihr =>
      rw [ids_binary] at ha
      cases hp with
      | product _ hl hr =>
          have hl' := left.estimated_of_landed_nil hl fun _ h =>
            ihl hl h ha.inputs.1 .nil hd.binary.1 hi.inputs.1
          have hr' := right.estimated_of_landed_nil hr fun _ h =>
            ihr hr h ha.inputs.2 .nil hd.binary.2.1 hi.inputs.2
          rw [Floating.landed_self, selectAll_nil]
          exact added.estimate_binary hl' hr' hq
  | linked _ _ chosen left right _ added ihl ihr =>
      rw [ids_binary] at ha
      obtain ⟨g, removed, hperm⟩ := Floating.perm_of_mem (mem_of_choice chosen).1 ha.of_append_left
      cases hp with
      | product _ hl hr =>
          have hl' := left.estimated_of_landed_nil hl fun _ h =>
            ihl hl h ha.inputs.1 .nil hd.binary.1 hi.inputs.1
          have hr' := right.estimated_of_landed_nil hr fun _ h =>
            ihr hr h ha.inputs.2 .nil hd.binary.2.1 hi.inputs.2
          have hjoin := added.estimate_binary hl' hr' hq
          rw [removed, Option.getD_some, Floating.landed_removed ha.of_append_left hperm,
            selectAll_singleton]
          exact select_turned (select_of_join (hl.not_mem_right hr hd) hjoin)
  | join left right added ihl ihr =>
      rw [ids_binary] at ha
      cases hp with
      | join _ hl hr he =>
          have hl' := left.estimated_of_landed_nil hl fun _ h =>
            ihl hl h ha.inputs.1 .nil hd.binary.1 hi.inputs.1
          have hr' := right.estimated_of_landed_nil hr fun _ h =>
            ihr hr h ha.inputs.2 .nil hd.binary.2.1 hi.inputs.2
          rw [Floating.landed_self, selectAll_nil, ← he]
          exact added.estimate_binary hl' hr' hq

end Fused

/-- Fusing joins does not change the estimate of the output, unless two predicates compare a
common column. That some product has more pairs of tuples than can be counted is no exception. -/
theorem run_same_estimate {p : Plan} (hp : p.Consistent) (hi : p.DistinctIds)
    (hd : p.DistinctColumns) (hind : Predicate.Independent p.predicates) (x : Progress) :
    ∃ q y d, Returns (run p) x q y ∧ p.output = .ok d ∧ q.output = .ok d := by
  obtain ⟨d, hp⟩ := hp.estimated
  obtain ⟨q, y, h⟩ := succeeds_run hp hd x
  obtain ⟨g, fused⟩ := fused_of_run h hp
  obtain ⟨e, hq⟩ := fused.known hp
  obtain rfl : d = e := eq_of_landed_nil (fused.selectAll_landed hp hq hi .nil hd hind)
  exact ⟨q, y, d, h, hp.output_eq, hq.output_eq⟩

/-- A comparison with a constant and a projection over an equation that a product of too many
pairs takes, with a join below it. -/
def teeming : Plan :=
  ⟨.select (.equalsValue ⟨"w"⟩ "1"), [⟨.project [⟨"x"⟩, ⟨"w"⟩],
    [⟨.select (.equalsColumn ⟨"x"⟩ ⟨"y"⟩), [⟨.product,
      [⟨.scan ⟨"r", ⟨1099511627776, [⟨⟨"x"⟩, 4⟩]⟩⟩, [], 1, some ⟨1099511627776, [⟨⟨"x"⟩, 4⟩]⟩⟩,
        ⟨.join (.equalsColumn ⟨"z"⟩ ⟨"v"⟩),
          [⟨.scan ⟨"s", ⟨1073741824, [⟨⟨"y"⟩, 3⟩, ⟨⟨"z"⟩, 2⟩, ⟨⟨"w"⟩, 7⟩]⟩⟩, [], 2,
              some ⟨1073741824, [⟨⟨"y"⟩, 3⟩, ⟨⟨"z"⟩, 2⟩, ⟨⟨"w"⟩, 7⟩]⟩⟩,
            ⟨.scan ⟨"t", ⟨8, [⟨⟨"v"⟩, 6⟩]⟩⟩, [], 3, some ⟨8, [⟨⟨"v"⟩, 6⟩]⟩⟩],
          4, some ⟨1431655765, [⟨⟨"y"⟩, 3⟩, ⟨⟨"z"⟩, 2⟩, ⟨⟨"w"⟩, 7⟩, ⟨⟨"v"⟩, 2⟩]⟩⟩],
      5, some ⟨18446744073709551615,
        [⟨⟨"x"⟩, 4⟩, ⟨⟨"y"⟩, 3⟩, ⟨⟨"z"⟩, 2⟩, ⟨⟨"w"⟩, 7⟩, ⟨⟨"v"⟩, 2⟩]⟩⟩],
      6, some ⟨4611686018427387903,
        [⟨⟨"x"⟩, 3⟩, ⟨⟨"y"⟩, 3⟩, ⟨⟨"z"⟩, 2⟩, ⟨⟨"w"⟩, 7⟩, ⟨⟨"v"⟩, 2⟩]⟩⟩],
    7, some ⟨4611686018427387903, [⟨⟨"x"⟩, 3⟩, ⟨⟨"w"⟩, 7⟩]⟩⟩],
  8, some ⟨658812288346769700, [⟨⟨"x"⟩, 3⟩, ⟨⟨"w"⟩, 1⟩]⟩⟩

theorem run_same_estimate_teeming :
    ∃ q y d, Returns (run teeming) .start q y ∧ teeming.output = .ok d ∧ q.output = .ok d := by
  have hp : teeming.Estimated ⟨658812288346769700, [⟨⟨"x"⟩, 3⟩, ⟨⟨"w"⟩, 1⟩]⟩ :=
    .select 8 (.project 7 (.select 6 (.product 5 (.scan _ 1)
      (.join 4 (.scan _ 2) (.scan _ 3) rfl)) rfl) rfl) rfl
  have hi : teeming.DistinctIds := by
    unfold DistinctIds
    decide
  exact run_same_estimate hp.consistent hi (by decide) (by decide) .start

end QueryPlan.FuseJoins
