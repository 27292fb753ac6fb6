import QueryPlan.Proofs.Consistent
import QueryPlan.Proofs.PushSelects.Run

/-!
Pushing selections down moves selections and nothing else. Taken without them, the plan
stays the same tree of scans, projections, products and joins; taken with those that no
node below can have, too. It has the same columns in the same order, and returns the
same rows.
-/

namespace QueryPlan.Plan

mutual

/-- The plan with no selections but those that pass a test on their predicate and the plan below.
Numbers and estimates are left out. -/
def thinned (keep : Predicate → Plan → Bool) : Plan → Plan
  | ⟨.select predicate, [q], _, _⟩ =>
      if keep predicate q then ⟨.select predicate, [thinned keep q], 0, none⟩ else thinned keep q
  | ⟨op, ps, _, _⟩ => ⟨op, thinnedAll keep ps, 0, none⟩

def thinnedAll (keep : Predicate → Plan → Bool) : List Plan → List Plan
  | [] => []
  | p :: ps => thinned keep p :: thinnedAll keep ps

end

def framework (p : Plan) : Plan :=
  p.thinned fun _ _ => false

variable {keep : Predicate → Plan → Bool} {p q l r : Plan} {i : NodeId} {e : Option Statistics}
  {s : Statistics}

theorem thinned_select {predicate : Predicate} :
    (Plan.mk (.select predicate) [q] i e).thinned keep =
      if keep predicate q then ⟨.select predicate, [q.thinned keep], 0, none⟩
      else q.thinned keep := by
  rw [thinned]

theorem thinned_project {cs : List Column} :
    (Plan.mk (.project cs) [q] i e).thinned keep = ⟨.project cs, [q.thinned keep], 0, none⟩ := by
  rw [thinned, thinnedAll, thinnedAll]
  exact fun _ _ ho => by cases ho

theorem thinned_binary {op : Operator} (ho : op.arity = 2) :
    (Plan.mk op [l, r] i e).thinned keep = ⟨op, [l.thinned keep, r.thinned keep], 0, none⟩ := by
  obtain rfl | ⟨_, rfl⟩ := product_or_join ho <;> simp [thinned, thinnedAll]

theorem selections_select {predicate : Predicate} :
    (Plan.mk (.select predicate) [q] i e).selections = predicate :: q.selections := by
  rw [selections, preorder_unary]
  rfl

theorem selections_project {cs : List Column} :
    (Plan.mk (.project cs) [q] i e).selections = q.selections := by
  rw [selections, preorder_unary]
  rfl

theorem selections_binary {op : Operator} (ho : op.arity = 2) :
    (Plan.mk op [l, r] i e).selections = l.selections ++ r.selections := by
  rw [selections, preorder_binary, List.filterMap_cons, List.filterMap_append]
  obtain rfl | ⟨_, rfl⟩ := product_or_join ho <;> rfl

theorem framework_select {predicate : Predicate} :
    (Plan.mk (.select predicate) [q] i e).framework = q.framework := by
  rw [framework, thinned_select, if_neg (by simp), framework]

theorem predicates_eq_binary {op : Operator} (ho : op.arity = 2)
    (hl : (l.predicates : Multiset Predicate) = l.selections + l.framework.predicates)
    (hr : (r.predicates : Multiset Predicate) = r.selections + r.framework.predicates) :
    ((Plan.mk op [l, r] i e).predicates : Multiset Predicate) =
      (Plan.mk op [l, r] i e).selections + (Plan.mk op [l, r] i e).framework.predicates := by
  rw [framework] at hl hr ⊢
  simp only [predicates_binary, selections_binary ho, thinned_binary ho, ← Multiset.coe_add, hl, hr]
  ac_rfl

/-- The predicates that no selection has stand in the framework. -/
theorem Estimated.predicates_eq (h : p.Estimated s) :
    (p.predicates : Multiset Predicate) = p.selections + p.framework.predicates := by
  induction h with
  | scan r i => rfl
  | select i _ _ ih =>
      simp only [predicates_unary, selections_select, framework_select, Operator.predicate?,
        Option.toList_some, List.singleton_append, ← Multiset.cons_coe, ih, Multiset.cons_add]
  | project i _ _ ih =>
      simp only [framework, predicates_unary, selections_project, thinned_project,
        Operator.predicate?, Option.toList_none, List.nil_append] at ih ⊢
      exact ih
  | product i _ _ ihl ihr | join i _ _ _ ihl ihr => exact predicates_eq_binary rfl ihl ihr

end QueryPlan.Plan

namespace QueryPlan.PushSelects

open Planner Plan

variable {n m : Nat} {p q l r : Plan} {f g : Floating} {predicate : Predicate}
  {predicates : List Predicate} {test : Predicate → Bool}

theorem absorbs_stacked (h : Stacked n p predicates m q) : absorbs q = absorbs p := by
  induction h with
  | nil => rfl
  | cons added _ ih =>
      cases added
      rw [ih, absorbs_unary rfl]

theorem absorbs_pair {op : Operator} {l' r' : Plan} {i j : NodeId} {e e' : Option Statistics}
    (ho : op.arity = 2) (hl : absorbs l' = absorbs l) (hr : absorbs r' = absorbs r)
    (hcl : l'.columns = l.columns) (hcr : r'.columns = r.columns) :
    absorbs ⟨op, [l', r'], j, e'⟩ = absorbs ⟨op, [l, r], i, e⟩ := by
  rw [absorbs_binary, absorbs_binary, takes_binary ho, takes_binary ho, hl, hr, hcl, hcr]

theorem Sunk.absorbs_eq (h : Sunk p f q g) : absorbs q = absorbs p := by
  induction h with
  | scan stacked => exact absorbs_stacked stacked
  | kept _ _ _ _ ih | project _ ih => rw [absorbs_unary rfl, absorbs_unary rfl, ih]
  | landed _ _ _ _ ih => rw [absorbs_unary rfl, ih]
  | pair binary _ _ _ left _ right _ stacked ihl ihr =>
      rw [absorbs_stacked stacked]
      exact absorbs_pair binary ihl ihr left.columns right.columns

/-- The predicate is one of those asked for, and no node of the plan takes it. -/
def stays (test : Predicate → Bool) (predicate : Predicate) (p : Plan) : Bool :=
  test predicate && !absorbs p predicate

theorem thinned_stacked (h : Stacked n p predicates m q)
    (ha : ∀ predicate ∈ predicates, absorbs p predicate) :
    q.thinned (stays test) = p.thinned (stays test) := by
  induction h with
  | nil => rfl
  | @cons _ _ p _ _ predicate _ added _ ih =>
      cases added
      rw [List.forall_mem_cons] at ha
      have hs : ¬ stays test predicate p := by simp [stays, ha.1]
      rw [ih (by rw [absorbs_unary rfl]; exact ha.2), thinned_select, if_neg hs]

/-- Selections that no node below can take stay where they are, all others are gone from there. -/
theorem Sunk.thinned_eq (h : Sunk p f q g) : q.thinned (stays test) = p.thinned (stays test) := by
  induction h with
  | scan stacked =>
      refine thinned_stacked stacked fun predicate hm => ?_
      rw [absorbs_scan]
      exact (Floating.mem_taken.mp hm).2
  | @kept predicate q q' _ _ _ _ _ _ _ own rest input ih =>
      rw [thinned_select, thinned_select, ih, stays, stays, input.absorbs_eq]
  | @landed predicate q q' _ _ _ _ _ own rest input ih =>
      have hs : ¬ stays test predicate q := by simp [stays, input.taken own rest]
      rw [ih, thinned_select, if_neg hs]
  | project _ ih => rw [thinned_project, thinned_project, ih]
  | @pair _ _ op l r l' r' _ _ _ u _ j _ e' _ _ h binary _ _ _ left _ right output stacked
      ihl ihr =>
      rw [thinned_stacked stacked, thinned_binary binary, thinned_binary binary, ihl, ihr]
      intro predicate hm
      have ht : takes ⟨op, [l', r'], j, e'⟩ predicate := by
        rw [takes_binary binary, left.columns, right.columns, ← output]
        exact (Floating.mem_taken.mp hm).2
      simp [absorbs_binary, ht]

theorem Sunk.framework_eq (h : Sunk p f q g) : q.framework = p.framework := by
  have hs : stays (fun _ => false) = fun _ _ => false := rfl
  rw [framework, framework, ← hs, h.thinned_eq]

theorem selections_of_run {s t : Progress} {e : Statistics} (h : Returns (run p) s q t)
    (hp : p.Estimated e) (hi : p.ids.Nodup) :
    q.selections.Perm p.selections := by
  have pushed := pushed_of_run h
  obtain ⟨_, hq⟩ := pushed.estimated hp
  have hperm := Multiset.coe_eq_coe.mpr (predicates_of_run h hp hi)
  rw [hq.predicates_eq, hp.predicates_eq, (pushed.sunk hp hi).framework_eq] at hperm
  exact Multiset.coe_eq_coe.mp (add_right_cancel hperm)

/-- Pushing selections down never fails on a consistent plan of any shape. It leaves the columns
in their order and the plan without its selections as it was, and returns the same rows. -/
theorem run_faithful (hp : p.Consistent) (hi : p.DistinctIds) (hd : p.DistinctColumns)
    (x : Progress) :
    ∃ q y d e, Returns (run p) x q y ∧ p.output = .ok d ∧ q.output = .ok e ∧
      e.columns = d.columns ∧ q.framework = p.framework ∧
      ∀ db, p.Fitted db → (q.rows db).Perm (p.rows db) := by
  obtain ⟨d, hp⟩ := hp.estimated
  obtain ⟨q, y, h⟩ := succeeds_run hp hd x
  have pushed := pushed_of_run h
  have sunk := pushed.sunk hp hi
  obtain ⟨e, hq⟩ := pushed.estimated hp
  refine ⟨q, y, d, e, h, hp.output_eq, hq.output_eq, ?_, sunk.framework_eq, fun db hdb => ?_⟩
  · rw [hq.columns_eq, hp.columns_eq, sunk.columns]
  · exact (faithful_of_run h hp hi hd hdb).rows

def mixed : Plan :=
  ⟨.select (.equalsValue ⟨"x"⟩ "1"), [⟨.select (.equalsColumn ⟨"x"⟩ ⟨"y"⟩), [⟨.product,
    [⟨.scan ⟨"r", ⟨8, [⟨⟨"x"⟩, 4⟩]⟩⟩, [], 1, some ⟨8, [⟨⟨"x"⟩, 4⟩]⟩⟩,
      ⟨.project [⟨"y"⟩], [⟨.select (.equalsColumn ⟨"y"⟩ ⟨"z"⟩),
        [⟨.scan ⟨"s", ⟨6, [⟨⟨"y"⟩, 3⟩, ⟨⟨"z"⟩, 2⟩]⟩⟩, [], 2, some ⟨6, [⟨⟨"y"⟩, 3⟩, ⟨⟨"z"⟩, 2⟩]⟩⟩],
        3, some ⟨2, [⟨⟨"y"⟩, 2⟩, ⟨⟨"z"⟩, 2⟩]⟩⟩], 4, some ⟨2, [⟨⟨"y"⟩, 2⟩]⟩⟩],
    5, some ⟨16, [⟨⟨"x"⟩, 4⟩, ⟨⟨"y"⟩, 2⟩]⟩⟩], 6, some ⟨4, [⟨⟨"x"⟩, 2⟩, ⟨⟨"y"⟩, 2⟩]⟩⟩],
    7, some ⟨2, [⟨⟨"x"⟩, 1⟩, ⟨⟨"y"⟩, 2⟩]⟩⟩

theorem consistent_mixed : mixed.Consistent := by
  have hp : mixed.Estimated ⟨2, [⟨⟨"x"⟩, 1⟩, ⟨⟨"y"⟩, 2⟩]⟩ :=
    .select 7 (.select 6 (.product 5 (.scan _ 1)
      (.project 4 (.select 3 (.scan _ 2) rfl) rfl)) rfl) rfl
  exact hp.consistent

theorem distinctIds_mixed : mixed.DistinctIds := by
  unfold DistinctIds
  decide

theorem run_faithful_mixed :
    ∃ q y d e, Returns (run mixed) .start q y ∧ mixed.output = .ok d ∧ q.output = .ok e ∧
      e.columns = d.columns ∧ q.framework = mixed.framework ∧
      ∀ db, mixed.Fitted db → (q.rows db).Perm (mixed.rows db) :=
  run_faithful consistent_mixed distinctIds_mixed (by decide) .start

end QueryPlan.PushSelects
