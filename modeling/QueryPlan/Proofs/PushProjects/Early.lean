import QueryPlan.Proofs.PushProjects.Heading

/-!
How early columns are dropped. What a node of the result needs is told from the result
alone: the columns asked for at the root, and those that the node and the selections and
joins above it compare. An input of a node shows only such columns, or none of them where
the rule has nothing to keep.
-/

namespace QueryPlan

namespace Operator

variable {op : Operator}

def compared (op : Operator) : List Column :=
  op.predicate?.toList.flatMap Predicate.columns

theorem compared_eq_used (ho : op.columns? = none) : op.compared = op.used := by
  cases op with
  | scan _ | product => rfl
  | select predicate | join predicate => exact List.append_nil _
  | project _ => cases ho

theorem compared_project (cs : List Column) : (project cs).compared = [] :=
  rfl

theorem columns?_binary (ho : op.arity = 2) : op.columns? = none := by
  cases op with
  | product | join _ => rfl
  | scan _ | select _ | project _ => cases ho

end Operator

namespace Plan

mutual

/-- The nodes, each with the given columns and those that it and the nodes above it compare. -/
def demands (needed : List Column) : Plan → List (List Column × Plan)
  | ⟨op, ps, i, e⟩ =>
      (needed ++ op.compared, ⟨op, ps, i, e⟩) :: demandsAll (needed ++ op.compared) ps

def demandsAll (needed : List Column) : List Plan → List (List Column × Plan)
  | [] => []
  | p :: ps => demands needed p ++ demandsAll needed ps

end

section Demands

variable {op : Operator} {q l r : Plan} {i : NodeId} {e : Option Statistics}
  {needed : List Column}

theorem demands_leaf :
    (Plan.mk op [] i e).demands needed = [(needed ++ op.compared, ⟨op, [], i, e⟩)] := by
  rw [demands, demandsAll]

theorem demands_unary :
    (Plan.mk op [q] i e).demands needed =
      (needed ++ op.compared, ⟨op, [q], i, e⟩) :: q.demands (needed ++ op.compared) := by
  rw [demands, demandsAll, demandsAll, List.append_nil]

theorem demands_binary :
    (Plan.mk op [l, r] i e).demands needed =
      (needed ++ op.compared, ⟨op, [l, r], i, e⟩) ::
        (l.demands (needed ++ op.compared) ++ r.demands (needed ++ op.compared)) := by
  rw [demands, demandsAll, demandsAll, demandsAll, List.append_nil]

mutual

theorem map_snd_demands (needed : List Column) (p : Plan) :
    (p.demands needed).map Prod.snd = p.preorder := by
  obtain ⟨op, ps, i, e⟩ := p
  rw [demands, List.map_cons, map_snd_demandsAll, preorder]

theorem map_snd_demandsAll (needed : List Column) (ps : List Plan) :
    (demandsAll needed ps).map Prod.snd = preorderAll ps := by
  cases ps with
  | nil => rfl
  | cons p ps =>
      rw [demandsAll, List.map_append, map_snd_demands, map_snd_demandsAll, preorderAll]

end

theorem mem_preorder_of_demands {p : Plan} {x : List Column × Plan} (h : x ∈ p.demands needed) :
    x.2 ∈ p.preorder := by
  rw [← map_snd_demands needed p]
  exact List.mem_map_of_mem h

end Demands

/-- Every column is among these, or none is. -/
def Within (p : Plan) (cs : List Column) : Prop :=
  p.columns ⊆ cs ∨ p.columns.Disjoint cs

/-- Unless the node is a projection, its inputs show nothing but what is needed, or nothing of
it. -/
def Thrifty (needed : List Column) (p : Plan) : Prop :=
  p.operator.columns? = none → ∀ q ∈ p.inputs, q.Within needed

/-- If the node is a projection, it keeps some columns of its input in their order, and not all
of them. -/
def Narrowing (p : Plan) : Prop :=
  p.operator.columns? ≠ none → ∀ q ∈ p.inputs,
    p.columns ≠ [] ∧ p.columns.Sublist q.columns ∧ ¬ q.columns ⊆ p.columns

end Plan

namespace PushProjects

open Planner Plan

variable {needed cs : List Column} {n m : Nat} {p q : Plan}

namespace Trimmed

theorem within (h : Trimmed needed n p m q) : q.Within needed := by
  cases h with
  | same whole => exact whole.symm
  | cut _ _ added =>
      cases added
      refine .inl fun c hc => ?_
      rw [Plan.columns, List.mem_filter, decide_eq_true_eq, List.mem_filter] at hc
      exact of_decide_eq_true hc.2.2

/-- The projection put on top compares nothing, so below it no more is needed. -/
theorem thrifty (h : Trimmed needed n p m q) (hp : ∀ x ∈ p.demands needed, Thrifty x.1 x.2) :
    ∀ x ∈ q.demands needed, Thrifty x.1 x.2 := by
  cases h with
  | same _ => exact hp
  | cut _ _ added =>
      cases added
      rw [demands_unary, Operator.compared_project, List.append_nil, List.forall_mem_cons]
      refine ⟨fun hx => ?_, hp⟩
      cases hx

theorem narrowing (h : Trimmed needed n p m q) (hp : ∀ x ∈ p.preorder, x.Narrowing) :
    ∀ x ∈ q.preorder, x.Narrowing := by
  cases h with
  | same _ => exact hp
  | cut some dropped added =>
      cases added
      rw [preorder_unary, List.forall_mem_cons]
      refine ⟨fun _ r hr => ?_, hp⟩
      have hcols (c : Column) :
          c ∈ p.columns.filter (· ∈ p.columns.filter (· ∈ needed)) ↔
            c ∈ p.columns ∧ c ∈ needed := by
        simp [List.mem_filter]
      rw [List.mem_singleton.mp hr, Plan.columns]
      refine ⟨?_, List.filter_sublist, fun hsub => ?_⟩
      · obtain ⟨c, hc⟩ := some
        exact List.ne_nil_of_mem ((hcols c).mpr hc)
      · obtain ⟨c, hc, hn⟩ := dropped
        exact hn ((hcols c).mp (hsub hc)).2

end Trimmed

namespace Pruned

/-- What stands for a plan without projections shows only what is needed above it, or nothing of
it. -/
theorem within (h : Pruned needed n p m q) (hf : p.ProjectFree) : q.Within needed := by
  cases h with
  | scan trimmed | select _ _ _ trimmed | pair _ _ _ _ _ trimmed => exact trimmed.within
  | project _ => exact absurd hf not_projectFree_project

theorem thrifty (h : Pruned needed n p m q) (hf : p.ProjectFree) :
    ∀ x ∈ q.demands needed, Thrifty x.1 x.2 := by
  induction h with
  | scan trimmed =>
      apply trimmed.thrifty
      intro x hx
      rw [demands_leaf, List.mem_singleton] at hx
      rw [hx]
      exact fun _ => List.forall_mem_nil _
  | select input added _ trimmed ih =>
      cases added
      apply trimmed.thrifty
      have hx := hf.unary
      rw [demands_unary, Operator.compared_eq_used rfl, List.forall_mem_cons]
      refine ⟨fun _ r hr => ?_, ih hx⟩
      rw [List.mem_singleton.mp hr]
      exact input.within hx
  | project _ _ => exact absurd hf not_projectFree_project
  | pair binary left right added _ trimmed ihl ihr =>
      cases added
      apply trimmed.thrifty
      have hlr := hf.binary
      rw [demands_binary, Operator.compared_eq_used (Operator.columns?_binary binary),
        List.forall_mem_cons, List.forall_mem_append]
      refine ⟨fun _ => ?_, ihl hlr.1, ihr hlr.2⟩
      rw [List.forall_mem_cons, List.forall_mem_singleton]
      exact ⟨left.within hlr.1, right.within hlr.2⟩

theorem narrowing (h : Pruned needed n p m q) : ∀ x ∈ q.preorder, x.Narrowing := by
  induction h with
  | scan trimmed =>
      apply trimmed.narrowing
      intro x hx
      rw [List.mem_singleton.mp hx]
      exact fun ho => absurd rfl ho
  | select _ added _ trimmed ih =>
      cases added
      apply trimmed.narrowing
      rw [preorder_unary, List.forall_mem_cons]
      exact ⟨fun ho => absurd rfl ho, ih⟩
  | project _ ih => exact ih
  | pair binary _ _ added _ trimmed ihl ihr =>
      cases added
      apply trimmed.narrowing
      rw [preorder_binary, List.forall_mem_cons, List.forall_mem_append]
      exact ⟨fun ho => absurd (Operator.columns?_binary binary) ho, ihl, ihr⟩

end Pruned

/-- The rule never fails on a consistent plan whose only projection, to some columns, is at its
root. Of each selection, product and join of the result every input shows only columns that are
asked for or compared from there up, or none of them. The root shows what is asked for, and each
projection drops some columns of its input and keeps the others in their order. -/
theorem run_drops_early (hp : p.Consistent) (ho : p.operator.columns? = some cs) (hc : cs ≠ [])
    (hin : ∀ x ∈ p.inputs, x.ProjectFree) (hd : p.DistinctColumns) (x : Progress) :
    ∃ q y d, Returns (run p) x q y ∧ q.output = .ok d ∧ (∀ c, c ∈ d ↔ c ∈ cs) ∧
      (∀ ds t, (ds, t) ∈ q.demands cs → t.operator.columns? = none → ∀ r ∈ t.inputs,
        ∃ e, r.output = .ok e ∧ (e.columns ⊆ ds ∨ e.columns.Disjoint ds)) ∧
      ∀ t ∈ q.preorder, t.operator.columns? ≠ none → ∀ r ∈ t.inputs,
        ∃ e f, t.output = .ok e ∧ r.output = .ok f ∧
          e.columns ≠ [] ∧ e.columns.Sublist f.columns ∧ ¬ f.columns ⊆ e.columns := by
  obtain ⟨_, hp⟩ := hp.estimated
  obtain ⟨q, y, h⟩ : Succeeds (run p) x := succeeds_run hp hd x
  obtain ⟨d, hq⟩ := (renewed_of_run h hp).known
  have known (t : Plan) (ht : t ∈ q.preorder) : ∃ e, t.Estimated e := (hq.of_mem ht).1
  have below (t : Plan) (ht : t ∈ q.preorder) (r : Plan) (hr : r ∈ t.inputs) :
      ∃ e, r.Estimated e :=
    known r (preorder_subset q ht (mem_preorder_of_input hr (mem_preorder_self r)))
  cases hp with
  | @project r s _ cs' i hr he =>
      have hroot := Estimated.project i hr he
      obtain rfl : cs' = cs := Option.some.inj ho
      have hf : r.ProjectFree := hin r (List.mem_singleton_self r)
      have hused : cs' ⊆ r.columns := hroot.used_unary
      have input : Pruned cs' x.issued r y.issued q := pruned_of_returns hr h
      have hcols := (input.columns_eq_iff hr hd.unary hused).mpr
        ⟨hf.heading_eq ▸ List.nil_subset _, .inl hc⟩
      refine ⟨q, y, d, h, hq.output_eq, fun c => ?_, fun ds t ht ho r hr => ?_,
        fun t ht ho r hr => ?_⟩
      · rw [hq.mem_iff, hcols, List.mem_filter, decide_eq_true_eq]
        exact and_iff_right_of_imp fun hm => hused hm
      · obtain ⟨e, he⟩ := below t (mem_preorder_of_demands ht) r hr
        refine ⟨e, he.output_eq, ?_⟩
        rw [he.columns_eq]
        exact input.thrifty hf (ds, t) ht ho r hr
      · obtain ⟨e, he⟩ := known t ht
        obtain ⟨f, hf⟩ := below t ht r hr
        refine ⟨e, f, he.output_eq, hf.output_eq, ?_⟩
        rw [he.columns_eq, hf.columns_eq]
        exact input.narrowing t ht ho r hr
  | scan _ _ | select _ _ _ | product _ _ _ | join _ _ _ _ => cases ho

def wide : Plan :=
  ⟨.project [⟨"x"⟩], [⟨.select (.equalsColumn ⟨"x"⟩ ⟨"y"⟩), [⟨.product,
    [⟨.scan ⟨"r", ⟨8, [⟨⟨"x"⟩, 4⟩, ⟨⟨"w"⟩, 2⟩]⟩⟩, [], 1, some ⟨8, [⟨⟨"x"⟩, 4⟩, ⟨⟨"w"⟩, 2⟩]⟩⟩,
      ⟨.join (.equalsColumn ⟨"u"⟩ ⟨"z"⟩),
        [⟨.scan ⟨"s", ⟨6, [⟨⟨"y"⟩, 3⟩, ⟨⟨"u"⟩, 2⟩]⟩⟩, [], 2, some ⟨6, [⟨⟨"y"⟩, 3⟩, ⟨⟨"u"⟩, 2⟩]⟩⟩,
          ⟨.scan ⟨"v", ⟨4, [⟨⟨"z"⟩, 4⟩, ⟨⟨"k"⟩, 2⟩]⟩⟩, [], 3,
            some ⟨4, [⟨⟨"z"⟩, 4⟩, ⟨⟨"k"⟩, 2⟩]⟩⟩],
        4, some ⟨6, [⟨⟨"y"⟩, 3⟩, ⟨⟨"u"⟩, 2⟩, ⟨⟨"z"⟩, 2⟩, ⟨⟨"k"⟩, 2⟩]⟩⟩],
    5, some ⟨48, [⟨⟨"x"⟩, 4⟩, ⟨⟨"w"⟩, 2⟩, ⟨⟨"y"⟩, 3⟩, ⟨⟨"u"⟩, 2⟩, ⟨⟨"z"⟩, 2⟩, ⟨⟨"k"⟩, 2⟩]⟩⟩],
    6, some ⟨12, [⟨⟨"x"⟩, 3⟩, ⟨⟨"w"⟩, 2⟩, ⟨⟨"y"⟩, 3⟩, ⟨⟨"u"⟩, 2⟩, ⟨⟨"z"⟩, 2⟩, ⟨⟨"k"⟩, 2⟩]⟩⟩],
  7, some ⟨12, [⟨⟨"x"⟩, 3⟩]⟩⟩

theorem run_drops_early_wide :
    ∃ q y d, Returns (run wide) .start q y ∧ q.output = .ok d ∧ (∀ c, c ∈ d ↔ c ∈ [⟨"x"⟩]) ∧
      (∀ ds t, (ds, t) ∈ q.demands [⟨"x"⟩] → t.operator.columns? = none → ∀ r ∈ t.inputs,
        ∃ e, r.output = .ok e ∧ (e.columns ⊆ ds ∨ e.columns.Disjoint ds)) ∧
      ∀ t ∈ q.preorder, t.operator.columns? ≠ none → ∀ r ∈ t.inputs,
        ∃ e f, t.output = .ok e ∧ r.output = .ok f ∧
          e.columns ≠ [] ∧ e.columns.Sublist f.columns ∧ ¬ f.columns ⊆ e.columns := by
  have hp : wide.Estimated ⟨12, [⟨⟨"x"⟩, 3⟩]⟩ :=
    .project 7 (.select 6 (.product 5 (.scan _ 1)
      (.join 4 (.scan _ 2) (.scan _ 3) rfl)) rfl) rfl
  exact run_drops_early hp.consistent rfl (by decide) (by decide) (by decide) .start

end PushProjects
end QueryPlan
