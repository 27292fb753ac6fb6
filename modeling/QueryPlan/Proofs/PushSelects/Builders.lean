import QueryPlan.Plan.Builder
import QueryPlan.Proofs.Consistent
import QueryPlan.Proofs.PushSelects.Run

/-!
Pushing selections down in a plan straight from a builder. Builders number their nodes
independently of one another, so a selection may find the entry of another one under
its own number and take that for its own. The number of selections stays the same all
the same; which predicates they have does as long as no two are confused.
-/

namespace QueryPlan

/-- Put together from scans, selections, projections and products, the right inputs of products
by builders of their own. -/
inductive Builder.Assembled : Builder → Prop
  | scan (r : BaseRelation) : Assembled (.scan r)
  | select {b : Builder} (h : Assembled b) (predicate : Predicate) : Assembled (b.select predicate)
  | project {b : Builder} (h : Assembled b) (cs : List Column) : Assembled (b.project cs)
  | product {b b' : Builder} (h : Assembled b) (h' : Assembled b') :
      Assembled (b.product b'.root)

theorem Builder.Assembled.joinFree {b : Builder} (h : b.Assembled) : b.root.JoinFree := by
  induction h with
  | scan r => exact (Plan.every_leaf _).mpr rfl
  | select _ _ ih | project _ _ ih => exact (Plan.every_unary _).mpr ⟨rfl, ih⟩
  | product _ _ ih ih' => exact (Plan.every_binary _).mpr ⟨rfl, ih, ih'⟩

namespace PushSelects

open Planner Plan

variable {b : Builder} {p q : Plan} {f g : Floating} {n m : Nat} {s : Statistics}

/-- The rule never fails on the estimated plan of a builder, and leaves as many selections. They
have the same predicates, unless one is still afloat when a selection with another predicate and
its number is left. -/
theorem run_selections (hb : b.Assembled) (hd : b.root.DistinctColumns)
    (he : b.root.reestimate = .ok p) (x : Progress) :
    ∃ q y, Returns (run p) x q y ∧ q.selections.length = p.selections.length ∧
      (Untangled p → q.selections.Perm p.selections) := by
  obtain ⟨s, hp⟩ := estimated_of_reestimate _ he
  have hops := operators_of_reestimate _ he
  have hdp : p.DistinctColumns := hd.of_scans (.of_eq (scans_of_operators hops))
  have hj : p.JoinFree := (every_of_operators hops).mpr hb.joinFree
  obtain ⟨q, y, h⟩ := succeeds_run hp hdp x
  have pushed := pushed_of_run h
  have hjq : q.JoinFree := pushed.every hp (fun _ => rfl) hj
  rw [hj.selections_eq]
  refine ⟨q, y, h, ?_, fun hu => ?_⟩
  · rw [hjq.selections_eq]
    simpa using pushed.tally_add tally_predicates hp
  · rw [hjq.selections_eq]
    exact predicates_of_untangled h hp hu

def labelled : Builder :=
  ((Builder.scan ⟨"s", ⟨6, [⟨⟨"y"⟩, 3⟩, ⟨⟨"z"⟩, 2⟩]⟩⟩).project [⟨"y"⟩, ⟨"z"⟩]).select
    (.equalsColumn ⟨"y"⟩ ⟨"z"⟩)

def stackedAbove (predicate : Predicate) : Builder :=
  ((Builder.scan ⟨"r", ⟨8, [⟨⟨"x"⟩, 4⟩]⟩⟩).product labelled.root).select predicate

theorem assembled_stackedAbove (predicate : Predicate) : (stackedAbove predicate).Assembled :=
  .select (.product (.scan _) (.select (.project (.scan _) _) _)) _

theorem run_selections_spared :
    ∃ p q y, (stackedAbove (.equalsValue ⟨"x"⟩ "1")).root.reestimate = .ok p ∧
      Returns (run p) .start q y ∧ q.selections.length = p.selections.length ∧
      q.selections.Perm p.selections := by
  obtain ⟨p, he, hu⟩ : ∃ p, (stackedAbove (.equalsValue ⟨"x"⟩ "1")).root.reestimate = .ok p ∧
      Untangled p := ⟨_, rfl, by decide +kernel⟩
  obtain ⟨q, y, h, hn, hs⟩ :=
    run_selections (assembled_stackedAbove _) (by decide) he .start
  exact ⟨p, q, y, he, h, hn, hs hu⟩

/-- The lower selection takes back the upper predicate, which is still afloat, and its own is
placed once more above the product. -/
theorem run_selections_mistaken :
    (stackedAbove (.equalsColumn ⟨"x"⟩ ⟨"y"⟩)).Assembled ∧
      (stackedAbove (.equalsColumn ⟨"x"⟩ ⟨"y"⟩)).root.DistinctColumns ∧
      ∃ p q y, (stackedAbove (.equalsColumn ⟨"x"⟩ ⟨"y"⟩)).root.reestimate = .ok p ∧
        Returns (run p) .start q y ∧
        p.selections = [.equalsColumn ⟨"x"⟩ ⟨"y"⟩, .equalsColumn ⟨"y"⟩ ⟨"z"⟩] ∧
        q.selections = [.equalsColumn ⟨"y"⟩ ⟨"z"⟩, .equalsColumn ⟨"y"⟩ ⟨"z"⟩] ∧
        ¬ q.selections.Perm p.selections :=
  ⟨assembled_stackedAbove _, by decide, _, _, _, rfl, rfl, rfl, rfl, by decide⟩

end PushSelects
end QueryPlan
