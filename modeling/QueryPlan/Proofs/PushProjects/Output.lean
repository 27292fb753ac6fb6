import QueryPlan.Proofs.Consistent
import QueryPlan.Proofs.PushProjects.Run

/-!
The output of a plan after projecting early. No estimate depends on a column that is
not compared, so statistics cut down to the columns needed are the same before and
after. The root needs all columns it has, unless a second projection stands right
below it, and so its estimate and its rows do not change at all.
-/

namespace QueryPlan.PushProjects

open Planner Plan

variable {needed cs : List Column} {n m : Nat} {p q : Plan} {s t : Statistics}

theorem Trimmed.restrict_eq (h : Trimmed needed n p m q) (hp : p.Estimated s)
    (hq : q.Estimated t) : t.restrict needed = s.restrict needed := by
  cases h with
  | same _ => rw [hp.unique hq]
  | cut _ _ added =>
      obtain ⟨_, rfl⟩ := Statistics.project_eq_ok.mp (added.estimate_unary hp hq)
      refine Statistics.restrict_restrict fun c hc hn => List.mem_filter.mpr ⟨?_, decide_eq_true hn⟩
      exact hp.mem_iff.mp hc

theorem Pruned.restrict_eq (h : Pruned needed n p m q) (hp : p.Estimated s) (hq : q.Estimated t)
    (hd : p.DistinctColumns) (hs : p.Shows needed) : t.restrict needed = s.restrict needed := by
  induction h generalizing s t with
  | scan trimmed => exact trimmed.restrict_eq hp hq
  | @select needed _ _ _ predicate _ _ _ _ _ _ _ input added known trimmed ih =>
      rw [trimmed.restrict_eq known hq]
      have hsx := hs.unary hp
      cases hp with
      | select _ hx he =>
          obtain ⟨_, hx'⟩ := input.known hx
          have he' := added.estimate_unary hx' known
          have hi := ih hx hx' hd.unary hsx
          have hown := List.subset_append_right needed predicate.columns
          have hsel := Statistics.select_restrict he' hown
          rw [hi, Statistics.select_restrict he hown, Except.ok.injEq] at hsel
          exact Statistics.restrict_congr hsel.symm (List.subset_append_left _ _)
  | project input ih =>
      have hsx := hs.unary hp
      cases hp with
      | project _ hx he =>
          obtain ⟨_, rfl⟩ := Statistics.project_eq_ok.mp he
          have hi := ih hx hq hd.unary hsx
          rw [Statistics.restrict_congr hi (List.subset_append_left _ _)]
          refine (Statistics.restrict_restrict fun c hc hn => ?_).symm
          exact mem_of_shows hx hs (hx.mem_iff.mp hc) hn
  | @pair needed _ _ _ _ op _ _ _ _ _ _ _ _ _ binary left right added known trimmed ihl ihr =>
      rw [trimmed.restrict_eq known hq]
      obtain ⟨hsl, hsr⟩ := hs.sides binary hp hd
      obtain rfl | ⟨predicate, rfl⟩ := product_or_join binary
      · cases hp with
        | product _ hl hr =>
            obtain ⟨_, hl'⟩ := left.known hl
            obtain ⟨_, hr'⟩ := right.known hr
            obtain rfl := known.unique (added.product hl' hr')
            have hil := ihl hl hl' hd.binary.1 hsl
            have hir := ihr hr hr' hd.binary.2.1 hsr
            rw [Operator.used, List.append_nil] at hil hir
            rw [← Statistics.product_restrict, hil, hir, Statistics.product_restrict]
      · cases hp with
        | join _ hl hr he =>
            obtain ⟨_, hl'⟩ := left.known hl
            obtain ⟨_, hr'⟩ := right.known hr
            have he' := added.estimate_binary hl' hr' known
            have hil := ihl hl hl' hd.binary.1 hsl
            have hir := ihr hr hr' hd.binary.2.1 hsr
            have hown := List.subset_append_right needed predicate.columns
            have hjoin := Statistics.join_restrict he' hown
            rw [Operator.used] at hil hir
            rw [hil, hir, Statistics.join_restrict he hown, Except.ok.injEq] at hjoin
            exact Statistics.restrict_congr hjoin.symm (List.subset_append_left _ _)

/-- The rule never fails on a consistent plan with a projection to some columns at its root and no
second one right below. It changes neither the estimate of the output nor the rows returned. -/
theorem run_same_output (hp : p.Consistent) (ho : p.operator.columns? = some cs) (hc : cs ≠ [])
    (hin : ∀ x ∈ p.inputs, x.operator.columns? = none) (hd : p.DistinctColumns) (x : Progress) :
    ∃ q y d, Returns (run p) x q y ∧ p.output = .ok d ∧ q.output = .ok d ∧
      ∀ db, p.Fitted db → (q.rows db).Perm (p.rows db) := by
  obtain ⟨d, hp⟩ := hp.estimated
  obtain ⟨q, y, h⟩ : Succeeds (run p) x := succeeds_run hp hd x
  obtain ⟨e, hq⟩ := (renewed_of_run h hp).known
  refine ⟨q, y, d, h, hp.output_eq, ?_⟩
  cases hp with
  | @project r s _ cs' i hr he =>
      obtain rfl : cs' = cs := Option.some.inj ho
      have hroot := Estimated.project i hr he
      have input : Pruned cs' x.issued r y.issued q := pruned_of_returns hr h
      have hh : r.heading ⊆ cs' := by
        rw [heading_eq_nil (hin r (List.mem_singleton_self r))]
        exact List.nil_subset _
      have hused : cs' ⊆ r.columns := hroot.used_unary
      have hs : r.Shows cs' := shows_of_subset hused
      obtain ⟨c, hm⟩ := List.exists_mem_of_ne_nil cs' hc
      have hsub : e.columns ⊆ cs' := by
        rw [hq.columns_eq]
        exact input.columns_subset hr hd.unary hs hh hm (hused hm)
      have heq := input.restrict_eq hr hq hd.unary hs
      rw [Statistics.restrict_eq_self hsub] at heq
      obtain ⟨_, rfl⟩ := Statistics.project_eq_ok.mp he
      refine ⟨by rw [hq.output_eq, heq, Statistics.restrict], fun db hdb => ?_⟩
      exact (faithful_of_pruned input hroot hh hd.unary hc hdb.unary).rows
  | scan _ _ | select _ _ _ | product _ _ _ | join _ _ _ _ => cases ho

/-- Below the root an equation over a product, and on its left a projection that hides a column of
the join below it. -/
def layered : Plan :=
  ⟨.project [⟨"x"⟩], [⟨.select (.equalsColumn ⟨"x"⟩ ⟨"y"⟩), [⟨.product,
    [⟨.project [⟨"x"⟩, ⟨"z"⟩], [⟨.join (.equalsColumn ⟨"z"⟩ ⟨"u"⟩),
        [⟨.scan ⟨"r", ⟨8, [⟨⟨"x"⟩, 4⟩, ⟨⟨"z"⟩, 2⟩]⟩⟩, [], 1, some ⟨8, [⟨⟨"x"⟩, 4⟩, ⟨⟨"z"⟩, 2⟩]⟩⟩,
          ⟨.scan ⟨"v", ⟨4, [⟨⟨"u"⟩, 4⟩]⟩⟩, [], 2, some ⟨4, [⟨⟨"u"⟩, 4⟩]⟩⟩],
        3, some ⟨8, [⟨⟨"x"⟩, 4⟩, ⟨⟨"z"⟩, 2⟩, ⟨⟨"u"⟩, 2⟩]⟩⟩],
        4, some ⟨8, [⟨⟨"x"⟩, 4⟩, ⟨⟨"z"⟩, 2⟩]⟩⟩,
      ⟨.scan ⟨"s", ⟨6, [⟨⟨"y"⟩, 3⟩, ⟨⟨"w"⟩, 2⟩]⟩⟩, [], 5, some ⟨6, [⟨⟨"y"⟩, 3⟩, ⟨⟨"w"⟩, 2⟩]⟩⟩],
    6, some ⟨48, [⟨⟨"x"⟩, 4⟩, ⟨⟨"z"⟩, 2⟩, ⟨⟨"y"⟩, 3⟩, ⟨⟨"w"⟩, 2⟩]⟩⟩],
    7, some ⟨12, [⟨⟨"x"⟩, 3⟩, ⟨⟨"z"⟩, 2⟩, ⟨⟨"y"⟩, 3⟩, ⟨⟨"w"⟩, 2⟩]⟩⟩],
  8, some ⟨12, [⟨⟨"x"⟩, 3⟩]⟩⟩

theorem run_same_output_layered :
    ∃ q y d, Returns (run layered) .start q y ∧ layered.output = .ok d ∧ q.output = .ok d ∧
      ∀ db, layered.Fitted db → (q.rows db).Perm (layered.rows db) := by
  have hp : layered.Estimated ⟨12, [⟨⟨"x"⟩, 3⟩]⟩ :=
    .project 8 (.select 7 (.product 6 (.project 4 (.join 3 (.scan _ 1) (.scan _ 2) rfl) rfl)
      (.scan _ 5)) rfl) rfl
  exact run_same_output hp.consistent rfl (by decide) (by decide) (by decide) .start

end QueryPlan.PushProjects
