import QueryPlan.Plan.Builder
import QueryPlan.Proofs.Prepare
import QueryPlan.Proofs.ReorderProducts.Success

/-!
The columns of a copy after reordering. A walk along the chain trades plans across
every projection it comes through, so the columns stay the same where no projection
stands above a product of the chain. Only the projection at the root does no harm:
it stays on top, and what has been detached goes below it.
-/

namespace QueryPlan.ReorderProducts

open Planner Plan

variable {c : Catalogue} {p q : Plan} {s t : Progress}

/-- Reordering a copy never fails and keeps its columns, wherever projections stand, unless one
that is not the root stands above a product of the chain. -/
theorem run_columns (prepared : Returns (prepare c p) s q t) (hd : p.DistinctSources c)
    (hu : Unbroken p.chain.tail) (x : Progress) :
    ∃ r y d e, Returns (run q) x r y ∧ q.output = .ok d ∧ r.output = .ok e ∧
      ∀ a, a ∈ e ↔ a ∈ d := by
  have copied := copied_of_returns prepared
  rw [← copied.chain] at hu
  obtain ⟨d, hq⟩ := copied.known
  obtain ⟨r, y, h⟩ : Succeeds (run q) x := succeeds_run hq hu (copied.distinctColumns hd) x
  have ran := ran_of_returns h hq
  obtain ⟨e, hr⟩ := ran.known hq
  refine ⟨r, y, d, e, h, hq.output_eq, hr.output_eq, fun a => ?_⟩
  rw [hr.mem_iff, hq.mem_iff]
  exact ran.columns hq hu a

def threeRelations : Catalogue :=
  .ofList [⟨"r", ⟨8, [⟨⟨"x"⟩, 4⟩]⟩⟩, ⟨"s", ⟨4, [⟨⟨"y"⟩, 2⟩]⟩⟩, ⟨"t", ⟨2, [⟨⟨"z"⟩, 2⟩]⟩⟩]

def unbroken : Plan :=
  ((((Builder.scan ⟨"r", ⟨0, []⟩⟩).project [⟨"x"⟩]).product
    ((Builder.scan ⟨"s", ⟨0, []⟩⟩).project [⟨"y"⟩]).root).select
      (.equalsColumn ⟨"x"⟩ ⟨"y"⟩)).product (Builder.scan ⟨"t", ⟨0, []⟩⟩).root
    |>.project [⟨"x"⟩, ⟨"z"⟩] |>.root

theorem run_columns_unbroken :
    ∃ q t r y d e, Returns (prepare threeRelations unbroken) .start q t ∧
      Returns (run q) t r y ∧ q.output = .ok d ∧ r.output = .ok e ∧ ∀ a, a ∈ e ↔ a ∈ d := by
  obtain ⟨q, prepared⟩ := returns_of_isOk
    (m := prepare threeRelations unbroken) (s := .start) (by decide +kernel)
  obtain ⟨r, y, d, e, h⟩ := run_columns prepared (by decide +kernel) (by decide) _
  exact ⟨q, _, r, y, d, e, prepared, h⟩

def broken : Plan :=
  ((((Builder.scan ⟨"r", ⟨0, []⟩⟩).product (Builder.scan ⟨"s", ⟨0, []⟩⟩).root).project
    [⟨"y"⟩]).product (Builder.scan ⟨"t", ⟨0, []⟩⟩).root).root

/-- The smallest relation is traded to the bottom, below the projection, and lost there, while the
largest comes to stand above. -/
theorem run_columns_broken :
    broken.DistinctSources threeRelations ∧
      ∃ q t r y d e, Returns (prepare threeRelations broken) .start q t ∧
        Returns (run q) t r y ∧ q.output = .ok d ∧ r.output = .ok e ∧
        d.columns = [⟨"y"⟩, ⟨"z"⟩] ∧ e.columns = [⟨"y"⟩, ⟨"x"⟩] :=
  ⟨by decide +kernel, _, _, _, _, _, _, rfl, rfl, rfl, rfl, rfl, rfl⟩

end QueryPlan.ReorderProducts
