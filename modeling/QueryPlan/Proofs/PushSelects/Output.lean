import QueryPlan.Proofs.Consistent
import QueryPlan.Proofs.PushSelects.Run
import QueryPlan.Proofs.Selected

/-!
The output of a plan after pushing selections down. Where no two predicates compare a common
column, a selection that has come to stand lower divides the same count by the same number,
only earlier, and leaves no more tuples for it. What floats above a plan and lands in it
counts as selected on top.
-/

namespace QueryPlan

namespace Plan

/-- At no product or join there are more pairs of tuples than can be counted. Where there is one
input, its tuples have been counted already. -/
def Unsaturated (p : Plan) : Prop :=
  ∀ x ∈ p.preorder, (x.inputs.map tuples).prod ≤ Count.limit

instance (p : Plan) : Decidable p.Unsaturated :=
  inferInstanceAs (Decidable (∀ x ∈ p.preorder, (x.inputs.map tuples).prod ≤ Count.limit))

namespace Unsaturated

variable {q l r : Plan} {i : NodeId} {e : Option Statistics} {op : Operator} {s t : Statistics}

theorem unary (h : (Plan.mk op [q] i e).Unsaturated) : q.Unsaturated :=
  fun _ hx => h _ (mem_preorder_of_input (List.mem_singleton_self q) hx)

theorem left (h : (Plan.mk op [l, r] i e).Unsaturated) : l.Unsaturated :=
  fun _ hx => h _ (mem_preorder_of_input List.mem_cons_self hx)

theorem right (h : (Plan.mk op [l, r] i e).Unsaturated) : r.Unsaturated :=
  fun _ hx => h _ (mem_preorder_of_input (List.mem_cons_of_mem _ (List.mem_singleton_self r)) hx)

theorem pairs (h : (Plan.mk op [l, r] i e).Unsaturated) (hl : l.Estimated s)
    (hr : r.Estimated t) : s.tuples.toNat * t.tuples.toNat ≤ Count.limit := by
  have hprod := h _ (mem_preorder_self _)
  simpa [hl.tuples_eq, hr.tuples_eq] using hprod

end Unsaturated

end Plan

namespace PushSelects

open Planner Plan Statistics

variable {p q : Plan} {f g : Floating} {s t : Statistics}

/-- What the inputs of a product or join absorb may be selected after they have been multiplied,
and then what the node itself selects and takes. -/
theorem selectAll_taken_pair {op : Operator} {l r : Plan} {i : NodeId} {e : Option Statistics}
    {a b c d w : Statistics} (hp : (Plan.mk op [l, r] i e).Estimated s) (hl : l.Estimated a)
    (hr : r.Estimated b) (hd : (Plan.mk op [l, r] i e).DistinctColumns)
    (hi : (Plan.mk op [l, r] i e).Independent f.predicates)
    (hu : (Plan.mk op [l, r] i e).Unsaturated)
    (hleft : a.selectAll (f.taken (absorbs l)) = .ok c)
    (hright : b.selectAll ((f.untaken (absorbs l)).taken (absorbs r)) = .ok d)
    (hle : w.AtMost (c.product d))
    (hw : w.selectAll (op.predicate?.toList ++ ((f.untaken (absorbs l)).untaken (absorbs r)).taken
      (takes ⟨op, [l, r], i, e⟩)) = .ok t) :
    ∃ u, s.selectAll (f.taken (absorbs ⟨op, [l, r], i, e⟩)) = .ok u ∧ t.AtMost u := by
  obtain ⟨x, hx, hlex⟩ :=
    selectAll_product (hl.not_mem_right hr hd) (hu.pairs hl hr) hleft hright
  obtain ⟨y, hy, hley⟩ := (hle.trans hlex).selectAll hw
  have htaken : (f.taken (absorbs ⟨op, [l, r], i, e⟩)).Perm _ := Sunk.taken_pair_perm
  have hperm := (List.perm_append_comm_assoc _ op.predicate?.toList _).trans
    (htaken.symm.append_left op.predicate?.toList)
  have hind := (hi.own Floating.taken_sublist).perm hperm.symm
  have hall := selectAll_perm hperm hind (selectAll_append.mpr ⟨x, hx, hy⟩)
  obtain ⟨z, hz, hrest⟩ := selectAll_append.mp hall
  obtain rfl := Except.ok.inj ((hp.selectAll_own hl hr hd).symm.trans hz)
  exact ⟨y, hrest, hley⟩

/-- A plan pushed down has no more tuples than the plan with all that it absorbs selected on top,
and the same is known of its attributes. -/
theorem Sunk.selectAll_taken (h : Sunk p f q g) (hp : p.Estimated s) (hq : q.Estimated t)
    (hd : p.DistinctColumns) (hf : Afloat p f) (hi : p.Independent f.predicates)
    (hu : p.Unsaturated) : ∃ u, s.selectAll (f.taken (absorbs p)) = .ok u ∧ t.AtMost u := by
  induction h generalizing s t with
  | scan stacked =>
      obtain ⟨v, hv, ht⟩ := stacked.selectAll hq
      rw [absorbs_scan, hp.unique hv]
      exact ⟨t, ht, .refl t⟩
  | kept covered own rest input ih =>
      rw [absorbs_unary rfl]
      cases hp with
      | select _ hx he =>
          cases hq with
          | select _ hx' he' =>
              obtain ⟨u, hxu, hle⟩ := ih hx hx' hd.unary (hf.select covered) hi.select hu.unary
              rw [Floating.taken_add, if_neg (input.free own), List.append_nil] at hxu
              obtain ⟨v, hv, hlev⟩ := hle.select he'
              refine ⟨v, selectAll_of_last (hi.own Floating.taken_sublist) he ?_, hlev⟩
              exact selectAll_concat.mpr ⟨u, hxu, hv⟩
  | landed covered own rest input ih =>
      rw [absorbs_unary rfl]
      cases hp with
      | select _ hx he =>
          obtain ⟨u, hxu, hle⟩ := ih hx hq hd.unary (hf.select covered) hi.select hu.unary
          rw [Floating.taken_add, if_pos (input.taken own rest)] at hxu
          exact ⟨u, selectAll_of_last (hi.own Floating.taken_sublist) he hxu, hle⟩
  | project input ih =>
      have hclear := fun predicate hm => (clear_of_shows hp hd (hf predicate hm)).top
      rw [absorbs_unary rfl] at hclear ⊢
      cases hp with
      | project _ hx he =>
          cases hq with
          | project _ hx' he' =>
              obtain ⟨u, hxu, hle⟩ := ih hx hx' hd.unary hf.project hi.input hu.unary
              obtain ⟨_, rfl⟩ := project_eq_ok.mp he
              obtain ⟨_, rfl⟩ := project_eq_ok.mp he'
              refine ⟨_, selectAll_restrict hxu fun predicate hm c hc => ?_, hle.restrict _⟩
              obtain ⟨hm, ha⟩ := Floating.mem_taken.mp hm
              exact of_decide_eq_true (List.mem_filter.mp (hclear predicate hm ha hc)).2
  | @pair _ _ op l r l' r' _ a b v i j e e' f g h binary onLeft onRight restLeft left restRight
      right output stacked ihl ihr =>
      obtain ⟨w, hw, hstack⟩ := stacked.selectAll hq
      obtain ⟨_, ⟨a', hl'⟩, ⟨b', hr'⟩⟩ := hw.binary
      obtain ⟨hdl, hdr, hdis⟩ := hd.binary
      obtain ⟨hfl, hfr⟩ := hf.binary binary onLeft onRight hdis
      have hd' : (Plan.mk op [l', r'] j e').DistinctColumns :=
        hd.of_scans (.of_eq (by rw [scans_binary, scans_binary, left.scans, right.scans]))
      have hsub : g.predicates.Sublist f.predicates := restLeft.map _
      obtain ⟨c, hc, hlec⟩ := ihl onLeft hl' hdl hfl hi.left hu.left
      obtain ⟨d, hd₂, hled⟩ :=
        ihr onRight hr' hdr (hfr.mono restLeft) (hi.right.mono hsub) hu.right
      rw [left.rest] at hd₂
      rw [covered_eq_takes (i := i) (e := e) binary output, right.rest, left.rest] at hstack
      have hmade := selectAll_append.mpr ⟨w, hw.selectAll_own hl' hr' hd', hstack⟩
      exact selectAll_taken_pair hp onLeft onRight hd hi hu hc hd₂ (hlec.product hled) hmade

/-- Pushing selections down never raises the number of tuples expected, unless two predicates
compare a common column or somewhere there are too many pairs of tuples to be counted. What is
known of the attributes does not change at all. -/
theorem run_tuples_le (hp : p.Consistent) (hi : p.DistinctIds) (hd : p.DistinctColumns)
    (hind : Predicate.Independent p.predicates) (hu : p.Unsaturated) (x : Progress) :
    ∃ q y d e, Returns (run p) x q y ∧ p.output = .ok d ∧ q.output = .ok e ∧
      e.tuples ≤ d.tuples ∧ e.attributes = d.attributes := by
  obtain ⟨d, hp⟩ := hp.estimated
  obtain ⟨q, y, h⟩ := succeeds_run hp hd x
  have pushed := pushed_of_run h
  obtain ⟨e, hq⟩ := pushed.estimated hp
  obtain ⟨u, hdu, hle⟩ := (pushed.sunk hp hi).selectAll_taken hp hq hd .nil hind hu
  obtain rfl : d = u := Except.ok.inj hdu
  exact ⟨q, y, d, e, h, hp.output_eq, hq.output_eq, hle.tuples, hle.attributes⟩

def rounded : Plan :=
  ⟨.select (.equalsValue ⟨"w"⟩ "1"), [⟨.select (.equalsColumn ⟨"x"⟩ ⟨"y"⟩),
    [⟨.project [⟨"x"⟩, ⟨"y"⟩, ⟨"w"⟩], [⟨.product,
      [⟨.scan ⟨"r", ⟨9, [⟨⟨"x"⟩, 2⟩]⟩⟩, [], 1, some ⟨9, [⟨⟨"x"⟩, 2⟩]⟩⟩,
        ⟨.select (.equalsValue ⟨"z"⟩ "2"), [⟨.join (.equalsColumn ⟨"v"⟩ ⟨"u"⟩),
          [⟨.scan ⟨"s", ⟨3, [⟨⟨"y"⟩, 2⟩, ⟨⟨"v"⟩, 3⟩, ⟨⟨"w"⟩, 2⟩]⟩⟩, [], 2,
              some ⟨3, [⟨⟨"y"⟩, 2⟩, ⟨⟨"v"⟩, 3⟩, ⟨⟨"w"⟩, 2⟩]⟩⟩,
            ⟨.scan ⟨"t", ⟨3, [⟨⟨"u"⟩, 2⟩, ⟨⟨"z"⟩, 3⟩]⟩⟩, [], 3,
              some ⟨3, [⟨⟨"u"⟩, 2⟩, ⟨⟨"z"⟩, 3⟩]⟩⟩],
          4, some ⟨3, [⟨⟨"y"⟩, 2⟩, ⟨⟨"v"⟩, 2⟩, ⟨⟨"w"⟩, 2⟩, ⟨⟨"u"⟩, 2⟩, ⟨⟨"z"⟩, 3⟩]⟩⟩],
          5, some ⟨1, [⟨⟨"y"⟩, 2⟩, ⟨⟨"v"⟩, 2⟩, ⟨⟨"w"⟩, 2⟩, ⟨⟨"u"⟩, 2⟩, ⟨⟨"z"⟩, 1⟩]⟩⟩],
      6, some ⟨9, [⟨⟨"x"⟩, 2⟩, ⟨⟨"y"⟩, 2⟩, ⟨⟨"v"⟩, 2⟩, ⟨⟨"w"⟩, 2⟩, ⟨⟨"u"⟩, 2⟩, ⟨⟨"z"⟩, 1⟩]⟩⟩],
      7, some ⟨9, [⟨⟨"x"⟩, 2⟩, ⟨⟨"y"⟩, 2⟩, ⟨⟨"w"⟩, 2⟩]⟩⟩],
    8, some ⟨4, [⟨⟨"x"⟩, 2⟩, ⟨⟨"y"⟩, 2⟩, ⟨⟨"w"⟩, 2⟩]⟩⟩],
  9, some ⟨2, [⟨⟨"x"⟩, 2⟩, ⟨⟨"y"⟩, 2⟩, ⟨⟨"w"⟩, 1⟩]⟩⟩

theorem run_tuples_le_rounded :
    ∃ q y d e, Returns (run rounded) .start q y ∧ rounded.output = .ok d ∧ q.output = .ok e ∧
      e.tuples ≤ d.tuples ∧ e.attributes = d.attributes := by
  have hp : rounded.Estimated ⟨2, [⟨⟨"x"⟩, 2⟩, ⟨⟨"y"⟩, 2⟩, ⟨⟨"w"⟩, 1⟩]⟩ :=
    .select 9 (.select 8 (.project 7 (.product 6 (.scan _ 1)
      (.select 5 (.join 4 (.scan _ 2) (.scan _ 3) rfl) rfl)) rfl) rfl) rfl
  have hi : rounded.DistinctIds := by
    unfold DistinctIds
    decide
  exact run_tuples_le hp.consistent hi (by decide) (by decide) (by decide) .start

end PushSelects

end QueryPlan
