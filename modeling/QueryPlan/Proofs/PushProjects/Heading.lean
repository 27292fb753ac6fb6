import QueryPlan.Proofs.Consistent
import QueryPlan.Proofs.PushProjects.Run

/-!
The columns of a plan after projecting early. The projection at the root is
dropped, and what takes its place keeps the columns that any projection of the
heading lists, or all columns if none lists any. So the columns stay the same when
the projections below list no more than the root, and the root lists something.
-/

namespace QueryPlan.PushProjects

open Planner Plan

namespace Pruned

variable {needed cs : List Column} {n m : Nat} {p q : Plan} {s : Statistics}

/-- What a projection at the top lists stays in sight, however little is needed above it. -/
theorem heading_subset (h : Pruned needed n p m q) (hp : p.Estimated s) (hd : p.DistinctColumns)
    (hs : p.Shows needed) : p.heading ⊆ q.columns := by
  induction h generalizing s with
  | scan _ | select _ _ _ _ _ => exact List.nil_subset _
  | pair binary _ _ _ _ _ _ _ =>
      obtain rfl | ⟨_, rfl⟩ := product_or_join binary
      all_goals exact List.nil_subset _
  | project input ih =>
      have hsq := hs.unary hp
      have hused := hp.used_unary
      cases hp with
      | project _ hq _ =>
          refine List.append_subset.mpr ⟨fun c hc => ?_, ih hq hd.unary hsq⟩
          exact (input.columns hq hd.unary hsq (List.mem_append_right _ hc)).mpr (hused hc)

theorem columns_eq_iff (h : Pruned cs n p m q) (hp : p.Estimated s) (hd : p.DistinctColumns)
    (hc : cs ⊆ p.columns) :
    q.columns = p.columns.filter (· ∈ cs) ↔ p.heading ⊆ cs ∧ (cs ≠ [] ∨ p.leafColumns = []) := by
  have hs : p.Shows cs := shows_of_subset hc
  refine ⟨fun heq => ⟨fun c hm => ?_, ?_⟩, fun hx => ?_⟩
  · have hq := h.heading_subset hp hd hs hm
    rw [heq, List.mem_filter, decide_eq_true_eq] at hq
    exact hq.2
  · by_cases hn : cs = []
    · subst hn
      exact .inr (h.leafColumns_eq_nil (by simpa using heq))
    · exact .inl hn
  · obtain ⟨hh, hn | hl⟩ := hx
    · obtain ⟨c, hm⟩ := List.exists_mem_of_ne_nil cs hn
      have hsub := h.columns_subset hp hd hs hh hm (hc hm)
      rw [← h.filter_columns hp hd hs, List.filter_eq_self.mpr]
      exact fun d hd => decide_eq_true (hsub hd)
    · obtain ⟨_, hq⟩ := h.known hp
      have hpn : p.columns = [] := List.subset_nil.mp (hl ▸ hp.columns_subset)
      have hqn : q.columns = [] :=
        List.subset_nil.mp (hl ▸ leafColumns_congr h.scans ▸ hq.columns_subset)
      rw [hpn, hqn, List.filter_nil]

end Pruned

variable {p : Plan} {cs : List Column}

/-- The rule never fails on a consistent plan with a projection at its root, and it keeps the
columns just when no projection right below lists others, and the root lists any or there are
none. -/
theorem run_columns_iff (hp : p.Consistent) (ho : p.operator.columns? = some cs)
    (hd : p.DistinctColumns) (x : Progress) :
    ∃ q y d e, Returns (run p) x q y ∧ p.output = .ok d ∧ q.output = .ok e ∧
      (e.columns = d.columns ↔ p.heading ⊆ cs ∧ (cs ≠ [] ∨ p.leafColumns = [])) := by
  obtain ⟨d, hp⟩ := hp.estimated
  obtain ⟨q, y, h⟩ : Succeeds (run p) x := succeeds_run hp hd x
  obtain ⟨e, hq⟩ := (renewed_of_run h hp).known
  refine ⟨q, y, d, e, h, hp.output_eq, hq.output_eq, ?_⟩
  rw [hq.columns_eq, hp.columns_eq]
  cases hp with
  | @project r s t cs' i hr he =>
      have hused : cs' ⊆ r.columns := Estimated.used_unary (.project i hr he)
      obtain rfl : cs' = cs := Option.some.inj ho
      have input : Pruned cs' x.issued r y.issued q := pruned_of_returns hr h
      have hiff := input.columns_eq_iff hr hd.unary hused
      simpa [columns, heading, ownColumns] using hiff
  | scan _ _ | select _ _ _ | product _ _ _ | join _ _ _ _ => cases ho

def headed : Plan :=
  ⟨.project [⟨"x"⟩], [⟨.scan ⟨"r", ⟨8, [⟨⟨"x"⟩, 4⟩, ⟨⟨"y"⟩, 2⟩]⟩⟩, [], 1,
    some ⟨8, [⟨⟨"x"⟩, 4⟩, ⟨⟨"y"⟩, 2⟩]⟩⟩], 2, some ⟨8, [⟨⟨"x"⟩, 4⟩]⟩⟩

theorem run_columns_headed :
    ∃ q y d e, Returns (run headed) .start q y ∧ headed.output = .ok d ∧
      q.output = .ok e ∧ e.columns = d.columns := by
  have hp : headed.Estimated ⟨8, [⟨⟨"x"⟩, 4⟩]⟩ := .project 2 (.scan _ 1) rfl
  obtain ⟨q, y, d, e, h, hd, he, hiff⟩ :=
    run_columns_iff hp.consistent rfl (by decide) .start
  exact ⟨q, y, d, e, h, hd, he, hiff.mpr ⟨by decide, .inl (by decide)⟩⟩

def nested : Plan :=
  ⟨.project [⟨"x"⟩], [⟨.project [⟨"x"⟩, ⟨"y"⟩],
    [⟨.scan ⟨"r", ⟨8, [⟨⟨"x"⟩, 4⟩, ⟨⟨"y"⟩, 2⟩, ⟨⟨"z"⟩, 2⟩]⟩⟩, [], 1,
      some ⟨8, [⟨⟨"x"⟩, 4⟩, ⟨⟨"y"⟩, 2⟩, ⟨⟨"z"⟩, 2⟩]⟩⟩], 2,
    some ⟨8, [⟨⟨"x"⟩, 4⟩, ⟨⟨"y"⟩, 2⟩]⟩⟩], 3, some ⟨8, [⟨⟨"x"⟩, 4⟩]⟩⟩

/-- The columns of the lower projection come back when the upper one is dropped. -/
theorem run_columns_nested :
    nested.Consistent ∧ nested.DistinctColumns ∧
      ∃ q y d e, Returns (run nested) .start q y ∧ nested.output = .ok d ∧
        q.output = .ok e ∧ d.columns = [⟨"x"⟩] ∧ e.columns = [⟨"x"⟩, ⟨"y"⟩] := by
  have hp : nested.Estimated ⟨8, [⟨⟨"x"⟩, 4⟩]⟩ :=
    .project 3 (.project 2 (.scan _ 1) rfl) rfl
  exact ⟨hp.consistent, by decide, _, _, _, _, rfl, rfl, rfl, rfl, rfl⟩

end QueryPlan.PushProjects
