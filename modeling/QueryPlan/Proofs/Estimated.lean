import QueryPlan.Plan.Shape
import QueryPlan.Proofs.Estimates
import Mathlib.Data.List.Flatten
import Mathlib.Data.List.Nodup
import Mathlib.Data.List.Pairwise
import Mathlib.Tactic.Tauto

/-!
Plans estimated throughout. `Estimated` builds such plans from the bottom, with
the statistics of their output, and gives the induction that goes with them.
The columns of the output depend on the plan alone, and a column is usable
there if it is in sight and usable in the relation it comes from.
-/

namespace QueryPlan.Plan

/-- Every node has the estimate that follows from those below it, the topmost this one. -/
inductive Estimated : Plan → Statistics → Prop
  | scan (r : BaseRelation) (i : NodeId) :
      Estimated ⟨.scan r, [], i, some r.statistics⟩ r.statistics
  | select {q : Plan} {s t : Statistics} {predicate : Predicate} (i : NodeId)
      (input : Estimated q s) (estimate : s.select predicate = .ok t) :
      Estimated ⟨.select predicate, [q], i, some t⟩ t
  | project {q : Plan} {s t : Statistics} {cs : List Column} (i : NodeId)
      (input : Estimated q s) (estimate : s.project cs = .ok t) :
      Estimated ⟨.project cs, [q], i, some t⟩ t
  | product {l r : Plan} {s t : Statistics} (i : NodeId)
      (left : Estimated l s) (right : Estimated r t) :
      Estimated ⟨.product, [l, r], i, some (s.product t)⟩ (s.product t)
  | join {l r : Plan} {s t u : Statistics} {predicate : Predicate} (i : NodeId)
      (left : Estimated l s) (right : Estimated r t) (estimate : s.join t predicate = .ok u) :
      Estimated ⟨.join predicate, [l, r], i, some u⟩ u

/-- The tuples expected of the output, none where it has not been estimated. -/
def tuples (p : Plan) : Nat :=
  (p.estimate.map fun s => s.tuples.toNat).getD 0

section Pieces

variable {q l r : Plan} {i : NodeId} {e : Option Statistics} (op : Operator)

theorem preorder_unary : (Plan.mk op [q] i e).preorder = ⟨op, [q], i, e⟩ :: q.preorder := by
  simp [preorder_eq, preorderAll_eq_flatMap]

theorem preorder_binary :
    (Plan.mk op [l, r] i e).preorder = ⟨op, [l, r], i, e⟩ :: (l.preorder ++ r.preorder) := by
  simp [preorder_eq, preorderAll_eq_flatMap]

@[simp] theorem scans_leaf : (Plan.mk op [] i e).scans = op.relation?.toList := by
  cases op <;> rfl

@[simp] theorem scans_unary : (Plan.mk op [q] i e).scans = op.relation?.toList ++ q.scans := by
  rw [scans, preorder_unary, List.filterMap_cons]
  cases op.relation? <;> rfl

@[simp] theorem scans_binary :
    (Plan.mk op [l, r] i e).scans = op.relation?.toList ++ (l.scans ++ r.scans) := by
  rw [scans, preorder_binary, List.filterMap_cons, List.filterMap_append]
  cases op.relation? <;> rfl

@[simp] theorem predicates_leaf : (Plan.mk op [] i e).predicates = op.predicate?.toList := by
  cases op <;> rfl

@[simp] theorem predicates_unary :
    (Plan.mk op [q] i e).predicates = op.predicate?.toList ++ q.predicates := by
  rw [predicates, preorder_unary, List.filterMap_cons]
  cases op.predicate? <;> rfl

@[simp] theorem predicates_binary :
    (Plan.mk op [l, r] i e).predicates =
      op.predicate?.toList ++ (l.predicates ++ r.predicates) := by
  rw [predicates, preorder_binary, List.filterMap_cons, List.filterMap_append]
  cases op.predicate? <;> rfl

@[simp] theorem ids_leaf : (Plan.mk op [] i e).ids = [i] :=
  rfl

@[simp] theorem ids_unary : (Plan.mk op [q] i e).ids = i :: q.ids := by
  rw [ids, preorder_unary, List.map_cons]
  rfl

@[simp] theorem ids_binary : (Plan.mk op [l, r] i e).ids = i :: (l.ids ++ r.ids) := by
  rw [ids, preorder_binary, List.map_cons, List.map_append]
  rfl

/-- The columns of the relation a scan reads; other operators read none. -/
def ownColumns : Operator → List Column
  | .scan r => r.statistics.columns
  | .select _ | .project _ | .product | .join _ => []

@[simp] theorem leafColumns_leaf : (Plan.mk op [] i e).leafColumns = ownColumns op := by
  rw [leafColumns, scans_leaf]
  cases op <;> simp [Operator.relation?, ownColumns]

@[simp] theorem leafColumns_unary :
    (Plan.mk op [q] i e).leafColumns = ownColumns op ++ q.leafColumns := by
  rw [leafColumns, scans_unary, List.flatMap_append]
  cases op <;> simp [Operator.relation?, ownColumns, leafColumns]

@[simp] theorem leafColumns_binary :
    (Plan.mk op [l, r] i e).leafColumns = ownColumns op ++ (l.leafColumns ++ r.leafColumns) := by
  rw [leafColumns, scans_binary, List.flatMap_append, List.flatMap_append]
  cases op <;> simp [Operator.relation?, ownColumns, leafColumns]

theorem every_leaf {P : Operator → Prop} : (Plan.mk op [] i e).Every P ↔ P op :=
  List.forall_mem_singleton

theorem every_unary {P : Operator → Prop} :
    (Plan.mk op [q] i e).Every P ↔ P op ∧ q.Every P := by
  rw [Every, preorder_unary, List.forall_mem_cons]
  rfl

theorem every_binary {P : Operator → Prop} :
    (Plan.mk op [l, r] i e).Every P ↔ P op ∧ l.Every P ∧ r.Every P := by
  rw [Every, preorder_binary, List.forall_mem_cons, List.forall_mem_append]
  rfl

theorem ProjectFree.unary (h : (Plan.mk op [q] i e).ProjectFree) : q.ProjectFree :=
  ((every_unary op).mp h).2

theorem ProjectFree.binary (h : (Plan.mk op [l, r] i e).ProjectFree) :
    l.ProjectFree ∧ r.ProjectFree :=
  ((every_binary op).mp h).2

theorem not_projectFree_project {cs : List Column} :
    ¬ (Plan.mk (.project cs) [q] i e).ProjectFree := by
  intro h
  cases h _ (mem_preorder_self _)

theorem heading_eq_nil {p : Plan} (h : p.operator.columns? = none) : p.heading = [] := by
  unfold heading
  split
  · cases h
  · rfl

theorem ProjectFree.heading_eq {p : Plan} (h : p.ProjectFree) : p.heading = [] :=
  heading_eq_nil (h p (mem_preorder_self p))

theorem ProjectFree.unbroken {p : Plan} (h : p.ProjectFree) : Unbroken p.chain := by
  fun_induction chain p with
  | case1 _ _ _ _ ih => exact .cons (fun _ _ _ => rfl) (ih h.unary)
  | case2 _ _ _ _ _ => exact absurd h not_projectFree_project
  | case3 _ _ _ _ ih => exact .cons (fun _ _ _ => rfl) (ih h.binary.1)
  | case4 => exact .nil

theorem Rooted.unbroken {o : Option (List Column)} {p : Plan} (h : Rooted o p) :
    Unbroken p.chain.tail := by
  cases h with
  | bare hf => exact hf.unbroken.tail
  | under hf => exact hf.unbroken

theorem JoinFree.unary (h : (Plan.mk op [q] i e).JoinFree) : q.JoinFree :=
  ((every_unary op).mp h).2

theorem JoinFree.binary (h : (Plan.mk op [l, r] i e).JoinFree) : l.JoinFree ∧ r.JoinFree :=
  ((every_binary op).mp h).2

/-- Where nothing is joined, all predicates are those of selections. -/
theorem JoinFree.selections_eq {p : Plan} (h : p.JoinFree) : p.selections = p.predicates := by
  refine List.filterMap_congr fun q hq => ?_
  have hq' := h q hq
  revert hq'
  cases q.operator with
  | join predicate => exact fun hn => by cases hn
  | scan _ | select _ | project _ | product => exact fun _ => rfl

end Pieces

namespace Estimated

variable {p : Plan} {s t : Statistics} {c : Column}

theorem estimate_eq (h : p.Estimated s) : p.estimate = some s := by
  cases h <;> rfl

theorem output_eq (h : p.Estimated s) : p.output = .ok s := by
  rw [output, h.estimate_eq]

theorem unique (h : p.Estimated s) (h' : p.Estimated t) : s = t :=
  Option.some.inj (h.estimate_eq.symm.trans h'.estimate_eq)

theorem tuples_eq (h : p.Estimated s) : p.tuples = s.tuples.toNat := by
  rw [tuples, h.estimate_eq]
  rfl

/-- The estimate of a node is a matter of its operator and its inputs' outputs. -/
theorem estimated_unary {q : Plan} (h : q.Estimated s) (op : Operator) (i : NodeId)
    (e : Option Statistics) : (Plan.mk op [q] i e).estimated = op.estimate [s] := by
  simp only [estimated, List.mapM_cons, List.mapM_nil, h.output_eq]
  rfl

theorem estimated_binary {l r : Plan} (hl : l.Estimated s) (hr : r.Estimated t) (op : Operator)
    (i : NodeId) (e : Option Statistics) :
    (Plan.mk op [l, r] i e).estimated = op.estimate [s, t] := by
  simp only [estimated, List.mapM_cons, List.mapM_nil, hl.output_eq, hr.output_eq]
  rfl

theorem columns_eq (h : p.Estimated s) : s.columns = p.columns := by
  induction h with
  | scan r i => rfl
  | select i _ he ih => rw [Statistics.columns_select he, ih, columns]
  | project i _ he ih => rw [Statistics.columns_project he, ih, columns]
  | product i _ _ ihl ihr => rw [Statistics.columns_product, ihl, ihr, columns]
  | join i _ _ he ihl ihr => rw [Statistics.columns_join he, ihl, ihr, columns]

theorem mem_iff (h : p.Estimated s) : c ∈ s ↔ c ∈ p.columns := by
  rw [Statistics.mem_def, h.columns_eq]

/-- A chain that only a projection at the root could break is not broken without one. -/
theorem unbroken (h : p.Estimated s) (hb : p.operator.columns? = none)
    (hu : Unbroken p.chain.tail) : Unbroken p.chain := by
  cases h with
  | scan _ _ | join _ _ _ _ => exact .nil
  | select _ _ _ | product _ _ _ => exact .cons (fun _ _ _ => rfl) hu
  | project _ _ _ => cases hb

theorem covered_of_select {q : Plan} {predicate : Predicate} (hq : q.Estimated s)
    (he : s.select predicate = .ok t) : predicate.columns ⊆ q.columns :=
  fun c hc => hq.mem_iff.mp (Statistics.covered_of_select he c hc)

theorem columns_sublist (h : p.Estimated s) : p.columns.Sublist p.leafColumns := by
  induction h with
  | scan r i => simp [columns, ownColumns]
  | select i _ _ ih => simpa [columns, ownColumns] using ih
  | project i _ _ ih => simpa [columns, ownColumns] using List.filter_sublist.trans ih
  | product i _ _ ihl ihr | join i _ _ _ ihl ihr =>
      simpa [columns, ownColumns] using ihl.append ihr

theorem columns_subset (h : p.Estimated s) : p.columns ⊆ p.leafColumns :=
  h.columns_sublist.subset

theorem columns_eq_leafColumns (h : p.Estimated s) (hf : p.ProjectFree) :
    p.columns = p.leafColumns := by
  induction h with
  | scan r i => simp [columns, ownColumns]
  | select i _ _ ih =>
      simpa [columns, ownColumns] using ih hf.unary
  | project i _ _ _ =>
      exact absurd hf not_projectFree_project
  | product i _ _ ihl ihr | join i _ _ _ ihl ihr =>
      simp [columns, ownColumns, ihl hf.binary.1, ihr hf.binary.2]

end Estimated

section Binary

variable {l r : Plan} {i : NodeId} {e : Option Statistics} {op : Operator} {s : Statistics}

theorem product_or_join (h : op.arity = 2) : op = .product ∨ ∃ predicate, op = .join predicate := by
  cases op with
  | product => exact .inl rfl
  | join predicate => exact .inr ⟨predicate, rfl⟩
  | scan _ | select _ | project _ => simp [Operator.arity] at h

theorem columns_binary (h : op.arity = 2) :
    (Plan.mk op [l, r] i e).columns = l.columns ++ r.columns := by
  obtain rfl | ⟨_, rfl⟩ := product_or_join h <;> rfl

theorem relation?_binary (h : op.arity = 2) : op.relation? = none := by
  obtain rfl | ⟨_, rfl⟩ := product_or_join h <;> rfl

theorem Estimated.binary {qs : List Plan} (hp : (Plan.mk op (l :: r :: qs) i e).Estimated s) :
    qs = [] ∧ (∃ t, l.Estimated t) ∧ ∃ u, r.Estimated u := by
  cases hp with
  | product _ hl hr => exact ⟨rfl, ⟨_, hl⟩, ⟨_, hr⟩⟩
  | join _ hl hr _ => exact ⟨rfl, ⟨_, hl⟩, ⟨_, hr⟩⟩

/-- An operator of two inputs that is estimated throughout has them both. -/
theorem Estimated.sides {ps : List Plan} (hp : (Plan.mk op ps i e).Estimated s)
    (ho : op.arity = 2) : ∃ l r, ps = [l, r] ∧ (∃ t, l.Estimated t) ∧ ∃ u, r.Estimated u := by
  cases hp with
  | @product l r _ _ _ hl hr => exact ⟨l, r, rfl, ⟨_, hl⟩, ⟨_, hr⟩⟩
  | @join l r _ _ _ _ _ hl hr _ => exact ⟨l, r, rfl, ⟨_, hl⟩, ⟨_, hr⟩⟩
  | scan _ _ | select _ _ _ | project _ _ _ => simp [Operator.arity] at ho

end Binary

section Distinct

variable {q l r : Plan} {i : NodeId} {e : Option Statistics} {op : Operator}

theorem DistinctColumns.unary (h : (Plan.mk op [q] i e).DistinctColumns) : q.DistinctColumns := by
  rw [DistinctColumns, leafColumns_unary] at h
  exact (List.nodup_append.mp h).2.1

theorem DistinctColumns.binary (h : (Plan.mk op [l, r] i e).DistinctColumns) :
    l.DistinctColumns ∧ r.DistinctColumns ∧ l.leafColumns.Disjoint r.leafColumns := by
  rw [DistinctColumns, leafColumns_binary] at h
  have hlr := (List.nodup_append.mp h).2.1
  exact ⟨hlr.of_append_left, hlr.of_append_right, List.disjoint_of_nodup_append hlr⟩

/-- What one input of a product or join shows, the other does not. -/
theorem Estimated.not_mem_right {s t : Statistics} (hl : l.Estimated s) (hr : r.Estimated t)
    (hd : (Plan.mk op [l, r] i e).DistinctColumns) : ∀ c ∈ s, c ∉ t :=
  fun _ hc ht => hd.binary.2.2 (hl.columns_subset (hl.mem_iff.mp hc))
    (hr.columns_subset (hr.mem_iff.mp ht))

theorem DistinctOutputs.unary (h : (Plan.mk op [q] i e).DistinctOutputs) : q.DistinctOutputs :=
  fun _ hx => h _ (mem_preorder_of_input (List.mem_singleton_self q) hx)

theorem DistinctOutputs.left (h : (Plan.mk op [l, r] i e).DistinctOutputs) : l.DistinctOutputs :=
  fun _ hx => h _ (mem_preorder_of_input List.mem_cons_self hx)

theorem DistinctOutputs.right (h : (Plan.mk op [l, r] i e).DistinctOutputs) :
    r.DistinctOutputs :=
  fun _ hx => h _ (mem_preorder_of_input (List.mem_cons_of_mem _ (List.mem_singleton_self r)) hx)

theorem DistinctOutputs.disjoint (h : (Plan.mk op [l, r] i e).DistinctOutputs)
    (ho : op.arity = 2) : l.columns.Disjoint r.columns := by
  have hlr := h _ (mem_preorder_self _)
  rw [columns_binary ho] at hlr
  exact List.disjoint_of_nodup_append hlr

theorem DistinctColumns.of_scans {p : Plan} (h : p.DistinctColumns) (hs : q.scans.Perm p.scans) :
    q.DistinctColumns := by
  have hp : q.leafColumns.Perm p.leafColumns := hs.flatMap_right _
  exact hp.nodup_iff.mpr h

theorem relation_unique {bs : List BaseRelation} {b b' : BaseRelation} {c : Column}
    (h : (bs.flatMap fun b => b.statistics.columns).Nodup) (hb : b ∈ bs) (hb' : b' ∈ bs)
    (hc : c ∈ b.statistics.columns) (hc' : c ∈ b'.statistics.columns) : b = b' := by
  have hp := (List.nodup_flatMap.mp h).2
  have : Std.Symm (Function.onFun List.Disjoint fun b : BaseRelation => b.statistics.columns) :=
    ⟨fun _ _ hx _ hc hc' => hx hc' hc⟩
  by_contra hne
  exact hp.forall hb hb' hne hc hc'

theorem leafColumns_congr {p : Plan} (hs : q.scans = p.scans) : q.leafColumns = p.leafColumns := by
  rw [leafColumns, hs, leafColumns]

end Distinct

/-- Of these columns the plan hides none that it scans. -/
def Shows (p : Plan) (cs : List Column) : Prop :=
  ∀ c ∈ cs, c ∈ p.leafColumns → c ∈ p.columns

section Shows

variable {q l r : Plan} {i : NodeId} {e : Option Statistics} {op : Operator} {cs : List Column}

theorem shows_of_subset (h : cs ⊆ q.columns) : q.Shows cs :=
  fun _ hc _ => h hc

theorem shows_append {ds : List Column} : q.Shows (cs ++ ds) ↔ q.Shows cs ∧ q.Shows ds :=
  List.forall_mem_append

theorem Shows.select {predicate : Predicate} (h : (Plan.mk (.select predicate) [q] i e).Shows cs) :
    q.Shows cs := by
  intro c hc hl
  have hq := h c hc (by simpa [ownColumns] using hl)
  rwa [columns] at hq

theorem Shows.project {ds : List Column} (h : (Plan.mk (.project ds) [q] i e).Shows cs) :
    q.Shows cs := by
  intro c hc hl
  have hq := h c hc (by simpa [ownColumns] using hl)
  rw [columns] at hq
  exact (List.mem_filter.mp hq).1

/-- What one side scans, the other cannot show in its place. -/
theorem Shows.binary (h : (Plan.mk op [l, r] i e).Shows cs) (ho : op.arity = 2)
    (hl : l.columns ⊆ l.leafColumns) (hr : r.columns ⊆ r.leafColumns)
    (hd : l.leafColumns.Disjoint r.leafColumns) : l.Shows cs ∧ r.Shows cs := by
  refine ⟨fun c hc hm => ?_, fun c hc hm => ?_⟩
  · have hlr := h c hc (by simp [hm])
    rw [columns_binary ho, List.mem_append] at hlr
    exact hlr.resolve_right fun hcr => hd hm (hr hcr)
  · have hlr := h c hc (by simp [hm])
    rw [columns_binary ho, List.mem_append] at hlr
    exact hlr.resolve_left fun hcl => hd (hl hcl) hm

end Shows

/-- The column is in sight and has values to divide by. Of two under one name, the one further to
the left is meant. -/
def Usable : Plan → Column → Prop
  | ⟨.scan r, _, _, _⟩, c => r.statistics.Usable c
  | ⟨.select _, [q], _, _⟩, c => Usable q c
  | ⟨.project cs, [q], _, _⟩, c => c ∈ cs ∧ Usable q c
  | ⟨.product, [l, r], _, _⟩, c | ⟨.join _, [l, r], _, _⟩, c =>
      Usable l c ∨ c ∉ l.columns ∧ Usable r c
  | ⟨_, _, _, _⟩, _ => False

theorem usable_binary {op : Operator} {l r : Plan} {i : NodeId} {e : Option Statistics}
    {c : Column} (h : op.arity = 2) :
    (Plan.mk op [l, r] i e).Usable c ↔ l.Usable c ∨ c ∉ l.columns ∧ r.Usable c := by
  obtain rfl | ⟨_, rfl⟩ := product_or_join h <;> rfl

/-- What can be divided by is a matter of the plan alone. -/
theorem Estimated.usable {p : Plan} {s : Statistics} {c : Column} (h : p.Estimated s) :
    s.Usable c ↔ p.Usable c := by
  induction h with
  | scan r i => rfl
  | select i _ he ih => rw [Statistics.usable_select he, ih, Usable]
  | project i _ he ih => rw [Statistics.usable_project he, ih, Usable]
  | product i hl _ ihl ihr => rw [Statistics.usable_product, ihl, ihr, hl.mem_iff, Usable]
  | join i hl _ he ihl ihr => rw [Statistics.usable_join he, ihl, ihr, hl.mem_iff, Usable]

/-- A relation scanned has the column, and no value to divide by. -/
def Blank (p : Plan) (c : Column) : Prop :=
  ∃ r ∈ p.scans, c ∈ r.statistics ∧ ¬ r.statistics.Usable c

theorem Blank.mem {p : Plan} {c : Column} (h : p.Blank c) : c ∈ p.leafColumns := by
  obtain ⟨r, hr, hc, _⟩ := h
  exact List.mem_flatMap.mpr ⟨r, hr, hc⟩

theorem blank_congr {p q : Plan} {c : Column} (hs : q.scans.Perm p.scans) :
    q.Blank c ↔ p.Blank c := by
  simp only [Blank, hs.mem_iff]

/-- Neither the predicates given nor those of the plan compare a blank column. -/
def Sound (p : Plan) (predicates : List Predicate) : Prop :=
  ∀ predicate ∈ predicates ++ p.predicates, ∀ c ∈ predicate.columns, ¬ p.Blank c

section Blank

variable {q l r : Plan} {i : NodeId} {e : Option Statistics} {op : Operator} {c : Column}

theorem blank_unary (ho : op.relation? = none) : (Plan.mk op [q] i e).Blank c ↔ q.Blank c := by
  simp [Blank, ho]

theorem blank_binary (ho : op.relation? = none) :
    (Plan.mk op [l, r] i e).Blank c ↔ l.Blank c ∨ r.Blank c := by
  simp [Blank, ho, or_and_right, exists_or]

theorem Sound.unary {predicates : List Predicate} (h : (Plan.mk op [q] i e).Sound predicates)
    (ho : op.relation? = none) : q.Sound (predicates ++ op.predicate?.toList) := by
  intro predicate hm d hd hb
  refine h predicate ?_ d hd ((blank_unary ho).mpr hb)
  simpa [or_assoc] using hm

theorem Sound.left {predicates : List Predicate} (h : (Plan.mk op [l, r] i e).Sound predicates)
    (ho : op.relation? = none) : l.Sound predicates := by
  intro predicate hm d hd hb
  refine h predicate ?_ d hd ((blank_binary ho).mpr (.inl hb))
  simp only [predicates_binary, List.mem_append] at hm ⊢
  tauto

theorem Sound.right {predicates : List Predicate} (h : (Plan.mk op [l, r] i e).Sound predicates)
    (ho : op.relation? = none) : r.Sound (predicates ++ l.predicates) := by
  intro predicate hm d hd hb
  refine h predicate ?_ d hd ((blank_binary ho).mpr (.inr hb))
  simp only [predicates_binary, List.mem_append] at hm ⊢
  tauto

theorem Sound.mono {p : Plan} {ps qs : List Predicate} (h : p.Sound ps)
    (hq : qs ⊆ ps ++ p.predicates) : p.Sound qs := by
  intro predicate hm
  apply h predicate
  obtain hm | hm := List.mem_append.mp hm
  · exact hq hm
  · exact List.mem_append_right _ hm

/-- What is known of a column of one side does not depend on the other side. -/
theorem usable_sides {s t : Statistics} (hl : l.Estimated s) (hr : r.Estimated t)
    (hd : l.leafColumns.Disjoint r.leafColumns) :
    ((c ∈ l.columns ∧ ¬ l.Blank c) ∨ c ∉ l.columns ∧ c ∈ r.columns ∧ ¬ r.Blank c) ↔
      c ∈ l.columns ++ r.columns ∧ ¬ (l.Blank c ∨ r.Blank c) := by
  have hnl : c ∈ l.columns → ¬ r.Blank c := fun hc hb => hd (hl.columns_subset hc) hb.mem
  have hnr : c ∈ r.columns → ¬ l.Blank c := fun hc hb => hd hb.mem (hr.columns_subset hc)
  rw [List.mem_append]
  tauto

end Blank

namespace Estimated

variable {p : Plan} {s : Statistics} {c : Column}

/-- A column in sight is usable unless it was blank from the start: no operator masks a count
of zero, nor makes one. -/
theorem usable_iff (h : p.Estimated s) (hd : p.DistinctColumns) :
    s.Usable c ↔ c ∈ p.columns ∧ ¬ p.Blank c := by
  induction h with
  | scan r i =>
      have hu : r.statistics.Usable c → c ∈ r.statistics := Statistics.Usable.mem
      simp only [columns, Blank, scans_leaf, Operator.relation?, Option.toList_some,
        List.mem_singleton, exists_eq_left, ← Statistics.mem_def]
      tauto
  | select i _ he ih =>
      rw [Statistics.usable_select he, ih hd.unary, blank_unary rfl, columns]
  | project i _ he ih =>
      rw [Statistics.usable_project he, ih hd.unary, blank_unary rfl, columns]
      simp only [List.mem_filter, decide_eq_true_eq]
      tauto
  | product i hl hr ihl ihr =>
      rw [Statistics.usable_product, ihl hd.binary.1, ihr hd.binary.2.1, hl.mem_iff,
        blank_binary rfl]
      exact usable_sides hl hr hd.binary.2.2
  | join i hl hr he ihl ihr =>
      rw [Statistics.usable_join he, ihl hd.binary.1, ihr hd.binary.2.1, hl.mem_iff,
        blank_binary rfl]
      exact usable_sides hl hr hd.binary.2.2

/-- Plans that scan the same relations differ at most in the columns they have in sight. -/
theorem alike {q : Plan} {t : Statistics} {cs : List Column} (h : p.Estimated s)
    (hq : q.Estimated t) (hd : p.DistinctColumns) (hs : q.scans.Perm p.scans)
    (hc : ∀ c ∈ cs, (c ∈ q.columns ↔ c ∈ p.columns)) : Statistics.Alike s t cs := by
  intro c hm
  rw [h.usable_iff hd, hq.usable_iff (hd.of_scans hs), h.mem_iff, hq.mem_iff, hc c hm,
    blank_congr hs]
  exact ⟨.rfl, .rfl⟩

theorem own_covered {predicate : Predicate} (h : p.Estimated s)
    (ho : p.operator.predicate? = some predicate) : predicate.columns ⊆ p.columns := by
  cases h with
  | select i hq he =>
      obtain rfl := Option.some.inj ho
      exact hq.covered_of_select he
  | @join l r _ _ _ _ i hl hr he =>
      obtain rfl := Option.some.inj ho
      intro c hc
      have hu := Statistics.covered_of_join he c hc
      rw [Statistics.mem_def, Statistics.columns_join he, hl.columns_eq, hr.columns_eq] at hu
      exact hu
  | scan _ _ | project _ _ _ | product _ _ _ => simp [Operator.predicate?] at ho

theorem own_usable {predicate : Predicate} (h : p.Estimated s) (hd : p.DistinctColumns)
    (ho : p.operator.predicate? = some predicate) : ∀ c ∈ predicate.columns, s.Usable c := by
  cases h with
  | select i hq he =>
      obtain rfl := Option.some.inj ho
      intro c hc
      exact (Statistics.usable_select he).mpr (Statistics.select_ok_iff.mp ⟨_, he⟩ c hc)
  | @join l r s t _ _ i hl hr he =>
      obtain rfl := Option.some.inj ho
      obtain ⟨c, d, hj, hc, hdu⟩ := Statistics.join_ok_iff.mp ⟨_, he⟩
      have hds : d ∉ s := fun hm =>
        hd.binary.2.2 (hl.columns_subset (hl.mem_iff.mp hm))
          (hr.columns_subset (hr.mem_iff.mp hdu.mem))
      have hcu := (Statistics.usable_join he).mpr (.inl hc)
      have hdu' := (Statistics.usable_join he).mpr (.inr ⟨hds, hdu⟩)
      obtain ⟨rfl, _⟩ | ⟨rfl, _⟩ := hj
      all_goals simpa [Predicate.columns] using by tauto
  | scan _ _ | project _ _ _ | product _ _ _ => simp [Operator.predicate?] at ho

/-- What stands inside an estimated plan is estimated, and scans a part of its relations. -/
theorem of_mem {q : Plan} (h : p.Estimated s) (hq : q ∈ p.preorder) :
    (∃ t, q.Estimated t) ∧ q.scans.Sublist p.scans := by
  induction h with
  | scan r i =>
      rw [List.mem_singleton.mp hq]
      exact ⟨⟨_, .scan r i⟩, .refl _⟩
  | select i hp he ih =>
      rw [preorder_unary, List.mem_cons] at hq
      obtain rfl | hq := hq
      · exact ⟨⟨_, .select i hp he⟩, .refl _⟩
      · exact ⟨(ih hq).1, (ih hq).2.trans (by simp)⟩
  | project i hp he ih =>
      rw [preorder_unary, List.mem_cons] at hq
      obtain rfl | hq := hq
      · exact ⟨⟨_, .project i hp he⟩, .refl _⟩
      · exact ⟨(ih hq).1, (ih hq).2.trans (by simp)⟩
  | product i hl hr ihl ihr =>
      rw [preorder_binary, List.mem_cons, List.mem_append] at hq
      obtain rfl | hq | hq := hq
      · exact ⟨⟨_, .product i hl hr⟩, .refl _⟩
      · exact ⟨(ihl hq).1, (ihl hq).2.trans (by simp [Operator.relation?])⟩
      · exact ⟨(ihr hq).1, (ihr hq).2.trans (by simp [Operator.relation?])⟩
  | join i hl hr he ihl ihr =>
      rw [preorder_binary, List.mem_cons, List.mem_append] at hq
      obtain rfl | hq | hq := hq
      · exact ⟨⟨_, .join i hl hr he⟩, .refl _⟩
      · exact ⟨(ihl hq).1, (ihl hq).2.trans (by simp [Operator.relation?])⟩
      · exact ⟨(ihr hq).1, (ihr hq).2.trans (by simp [Operator.relation?])⟩

/-- Where no two relations share a column, no output has it twice. -/
theorem distinctOutputs (h : p.Estimated s) (hd : p.DistinctColumns) : p.DistinctOutputs := by
  intro x hx
  obtain ⟨⟨_, hxe⟩, hs⟩ := h.of_mem hx
  exact hd.sublist (hxe.columns_sublist.trans (hs.flatMap _))

/-- Predicates compare columns of relations scanned below them. -/
theorem predicates_covered (h : p.Estimated s) :
    ∀ predicate ∈ p.predicates, predicate.columns ⊆ p.leafColumns := by
  intro predicate hm
  obtain ⟨q, hq, ho⟩ := List.mem_filterMap.mp hm
  obtain ⟨⟨t, ht⟩, hs⟩ := h.of_mem hq
  have hl : q.leafColumns ⊆ p.leafColumns := (hs.flatMap _).subset
  exact fun c hc => hl (ht.columns_subset (ht.own_covered ho hc))

/-- No predicate of an estimated plan compares a blank column. -/
theorem sound (h : p.Estimated s) (hd : p.DistinctColumns) : p.Sound [] := by
  intro predicate hm c hc
  obtain ⟨q, hq, ho⟩ := List.mem_filterMap.mp hm
  obtain ⟨⟨t, ht⟩, hs⟩ := h.of_mem hq
  have hdq : q.DistinctColumns := hd.sublist (hs.flatMap _)
  obtain ⟨hcq, hnb⟩ := (ht.usable_iff hdq).mp (ht.own_usable hdq ho c hc)
  obtain ⟨r, hr, hrc⟩ := List.mem_flatMap.mp (ht.columns_subset hcq)
  intro hx
  obtain ⟨r', hr', hrc', hu⟩ := hx
  obtain rfl := relation_unique hd (hs.subset hr) hr' hrc hrc'
  exact hnb ⟨r, hr, hrc', hu⟩

/-- What an operator looks up below it is in sight there. -/
theorem used_unary {op : Operator} {q : Plan} {i : NodeId} {e : Option Statistics}
    (h : (Plan.mk op [q] i e).Estimated s) : op.used ⊆ q.columns := by
  cases h with
  | select i hq he => exact hq.covered_of_select he
  | project i hq he => exact fun c hc => hq.mem_iff.mp ((Statistics.project_eq_ok.mp he).1 c hc)

theorem used_binary {op : Operator} {l r : Plan} {i : NodeId} {e : Option Statistics}
    (h : (Plan.mk op [l, r] i e).Estimated s) : op.used ⊆ (Plan.mk op [l, r] i e).columns := by
  cases h with
  | product i hl hr => exact List.nil_subset _
  | join i hl hr he => exact own_covered (.join i hl hr he) rfl

end Estimated

section Shows

variable {q l r : Plan} {i : NodeId} {e : Option Statistics} {op : Operator} {cs : List Column}
  {s : Statistics}

/-- What the plan shows, every part of it shows. -/
theorem Shows.of_mem {p x : Plan} (h : p.Shows cs) (hp : p.Estimated s) (hd : p.DistinctColumns)
    (hx : x ∈ p.preorder) : x.Shows cs := by
  induction hp with
  | scan r i => rwa [List.mem_singleton.mp hx]
  | select i _ _ ih =>
      rw [preorder_unary, List.mem_cons] at hx
      obtain rfl | hx := hx
      · exact h
      · exact ih h.select hd.unary hx
  | project i _ _ ih =>
      rw [preorder_unary, List.mem_cons] at hx
      obtain rfl | hx := hx
      · exact h
      · exact ih h.project hd.unary hx
  | product i hl hr ihl ihr | join i hl hr _ ihl ihr =>
      obtain ⟨hdl, hdr, hdis⟩ := hd.binary
      obtain ⟨hsl, hsr⟩ := h.binary rfl hl.columns_subset hr.columns_subset hdis
      rw [preorder_binary, List.mem_cons, List.mem_append] at hx
      obtain rfl | hx | hx := hx
      · exact h
      · exact ihl hsl hdl hx
      · exact ihr hsr hdr hx

theorem Shows.unary (h : (Plan.mk op [q] i e).Shows cs) (hp : (Plan.mk op [q] i e).Estimated s) :
    q.Shows (cs ++ op.used) := by
  refine shows_append.mpr ⟨?_, shows_of_subset hp.used_unary⟩
  cases hp with
  | select _ _ _ => exact h.select
  | project _ _ _ => exact h.project

theorem Shows.sides (h : (Plan.mk op [l, r] i e).Shows cs) (ho : op.arity = 2)
    (hp : (Plan.mk op [l, r] i e).Estimated s) (hd : (Plan.mk op [l, r] i e).DistinctColumns) :
    l.Shows (cs ++ op.used) ∧ r.Shows (cs ++ op.used) := by
  obtain ⟨_, ⟨_, hl⟩, ⟨_, hr⟩⟩ := hp.binary
  have hused := shows_append.mpr ⟨h, shows_of_subset hp.used_binary⟩
  exact hused.binary ho hl.columns_subset hr.columns_subset hd.binary.2.2

end Shows

end QueryPlan.Plan
