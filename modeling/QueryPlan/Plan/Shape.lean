import QueryPlan.Plan.Traversal
import QueryPlan.Estimate

/-!
What a plan is made of, read off its nodes in preorder, and the conditions on
plans under which the rules are studied.
-/

namespace QueryPlan.Plan

def scans (p : Plan) : List BaseRelation :=
  p.preorder.filterMap fun q => q.operator.relation?

/-- The predicates of selections and joins, from the top. -/
def predicates (p : Plan) : List Predicate :=
  p.preorder.filterMap fun q => q.operator.predicate?

/-- The predicates of selections alone, from the top. -/
def selections (p : Plan) : List Predicate :=
  p.preorder.filterMap fun q =>
    match q.operator with
    | .select predicate => some predicate
    | .scan _ | .project _ | .product | .join _ => none

def ids (p : Plan) : List NodeId :=
  p.preorder.map Plan.id

def leafColumns (p : Plan) : List Column :=
  p.scans.flatMap fun r => r.statistics.columns

/-- Every node has the estimate that follows from those of its inputs. -/
def Consistent (p : Plan) : Prop :=
  ∀ q ∈ p.preorder, ∃ s, q.estimate = some s ∧ q.estimated = .ok s

def WellShaped (p : Plan) : Prop :=
  ∀ q ∈ p.preorder, q.inputs.length = q.operator.arity

instance (p : Plan) : Decidable p.WellShaped :=
  inferInstanceAs (Decidable (∀ q ∈ p.preorder, q.inputs.length = q.operator.arity))

def DistinctIds (p : Plan) : Prop :=
  p.ids.Nodup

def DistinctColumns (p : Plan) : Prop :=
  p.leafColumns.Nodup

instance (p : Plan) : Decidable p.DistinctColumns :=
  inferInstanceAs (Decidable (List.Nodup _))

mutual

/-- The plan with its scans reading the catalogue's relations of the same names. -/
def relinked (c : Catalogue) : Plan → Plan
  | ⟨.scan r, ps, i, s⟩ => ⟨.scan ((c.relation? r.name).getD r), relinkedAll c ps, i, s⟩
  | ⟨op, ps, i, s⟩ => ⟨op, relinkedAll c ps, i, s⟩

def relinkedAll (c : Catalogue) : List Plan → List Plan
  | [] => []
  | p :: ps => relinked c p :: relinkedAll c ps

end

/-- The catalogue's relations scanned, from left to right. -/
def sources (c : Catalogue) (p : Plan) : List BaseRelation :=
  p.scans.filterMap fun r => c.relation? r.name

/-- No two columns of the catalogue's relations scanned have the same name. -/
def DistinctSources (c : Catalogue) (p : Plan) : Prop :=
  ((p.sources c).flatMap fun r => r.statistics.columns).Nodup

instance (c : Catalogue) (p : Plan) : Decidable (p.DistinctSources c) :=
  inferInstanceAs (Decidable (List.Nodup _))

/-- The columns of the output, whatever is known of their counts. -/
def columns : Plan → List Column
  | ⟨.scan r, _, _, _⟩ => r.statistics.columns
  | ⟨.select _, [q], _, _⟩ => columns q
  | ⟨.project cs, [q], _, _⟩ => (columns q).filter (· ∈ cs)
  | ⟨.product, [l, r], _, _⟩ | ⟨.join _, [l, r], _, _⟩ => columns l ++ columns r
  | ⟨_, _, _, _⟩ => []

def DistinctOutputs (p : Plan) : Prop :=
  ∀ x ∈ p.preorder, x.columns.Nodup

instance (p : Plan) : Decidable p.DistinctOutputs :=
  inferInstanceAs (Decidable (∀ x ∈ p.preorder, x.columns.Nodup))

/-- The columns listed by the projections at the top, one right below the other. -/
def heading : Plan → List Column
  | ⟨.project cs, [q], _, _⟩ => cs ++ heading q
  | ⟨_, _, _, _⟩ => []

/-- The selections, projections and products along the chain of left inputs, from the top. -/
def chain : Plan → List Operator
  | ⟨.select predicate, [q], _, _⟩ => .select predicate :: chain q
  | ⟨.project cs, [q], _, _⟩ => .project cs :: chain q
  | ⟨.product, [l, _], _, _⟩ => .product :: chain l
  | ⟨_, _, _, _⟩ => []

/-- No projection of a chain stands above a product. -/
def Unbroken (chain : List Operator) : Prop :=
  chain.Pairwise fun a b => b = .product → a.columns? = none

instance (chain : List Operator) : Decidable (Unbroken chain) :=
  inferInstanceAs (Decidable (chain.Pairwise _))

def Every (P : Operator → Prop) (p : Plan) : Prop :=
  ∀ q ∈ p.preorder, P q.operator

instance (P : Operator → Prop) [DecidablePred P] (p : Plan) : Decidable (p.Every P) :=
  inferInstanceAs (Decidable (∀ q ∈ p.preorder, P q.operator))

def ProjectFree (p : Plan) : Prop :=
  p.Every fun op => op.columns? = none

instance (p : Plan) : Decidable p.ProjectFree :=
  inferInstanceAs (Decidable (p.Every _))

def JoinFree (p : Plan) : Prop :=
  p.Every fun op => op.isJoin = false

instance (p : Plan) : Decidable p.JoinFree :=
  inferInstanceAs (Decidable (p.Every _))

/-- A plan without projections, but for one at the root if columns are given. -/
inductive Rooted : Option (List Column) → Plan → Prop
  | bare {p : Plan} (h : p.ProjectFree) : Rooted none p
  | under {cs : List Column} {q : Plan} {i : NodeId} {e : Option Statistics}
      (h : q.ProjectFree) : Rooted (some cs) ⟨.project cs, [q], i, e⟩

/-- A tree of scans, selections and products, with at most one projection, at the root. -/
structure Canonical (p : Plan) : Prop where
  joinFree : p.JoinFree
  below : ∀ q ∈ p.inputs, q.ProjectFree

instance (p : Plan) : Decidable p.Canonical :=
  decidable_of_iff (p.JoinFree ∧ ∀ q ∈ p.inputs, q.ProjectFree)
    ⟨fun h => ⟨h.1, h.2⟩, fun h => ⟨h.joinFree, h.below⟩⟩

theorem preorder_eq (p : Plan) : p.preorder = p :: preorderAll p.inputs := by
  obtain ⟨op, ps, i, s⟩ := p
  rfl

theorem preorderAll_eq_flatMap (ps : List Plan) : preorderAll ps = ps.flatMap preorder := by
  induction ps with
  | nil => rfl
  | cons p ps ih => rw [preorderAll, ih, List.flatMap_cons]

theorem mem_preorder_self (p : Plan) : p ∈ p.preorder := by
  simp [preorder_eq]

theorem mem_preorder_of_input {p q r : Plan} (hq : q ∈ p.inputs) (hr : r ∈ q.preorder) :
    r ∈ p.preorder := by
  rw [preorder_eq, preorderAll_eq_flatMap]
  exact List.mem_cons_of_mem _ (List.mem_flatMap.mpr ⟨q, hq, hr⟩)

mutual

theorem preorder_subset (p : Plan) {q : Plan} (h : q ∈ p.preorder) : q.preorder ⊆ p.preorder := by
  obtain ⟨op, ps, i, s⟩ := p
  rw [preorder_eq, List.mem_cons] at h
  obtain rfl | h := h
  · exact List.Subset.refl _
  · rw [preorder_eq ⟨op, ps, i, s⟩]
    exact List.subset_cons_of_subset _ (preorderAll_subset ps h)

theorem preorderAll_subset (ps : List Plan) {q : Plan} (h : q ∈ preorderAll ps) :
    q.preorder ⊆ preorderAll ps := by
  cases ps with
  | nil => cases h
  | cons p ps =>
      rw [preorderAll, List.mem_append] at h
      rw [preorderAll]
      obtain h | h := h
      · exact List.subset_append_of_subset_left _ (preorder_subset p h)
      · exact List.subset_append_of_subset_right _ (preorderAll_subset ps h)

end

theorem Consistent.input {p q : Plan} (h : p.Consistent) (hq : q ∈ p.inputs) : q.Consistent :=
  fun _ hr => h _ (mem_preorder_of_input hq hr)

theorem WellShaped.input {p q : Plan} (h : p.WellShaped) (hq : q ∈ p.inputs) : q.WellShaped :=
  fun _ hr => h _ (mem_preorder_of_input hq hr)

end QueryPlan.Plan
