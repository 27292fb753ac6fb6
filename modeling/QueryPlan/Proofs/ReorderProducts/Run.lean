import QueryPlan.Proofs.ReorderProducts.Pairs

/-!
Reordering the chain of products at the root: a walk along the chain, and what it
has detached put back above, or below a projection on the top.
-/

namespace QueryPlan.ReorderProducts

open Planner Plan

/-- Detached selections over a plan, or over the input of the projection on its top. -/
inductive Restored : Nat → Plan → List Predicate → Nat → Plan → Prop
  | above {n m : Nat} {p q : Plan} {predicates : List Predicate}
      (stacked : Stacked n p predicates m q)
      (bare : predicates = [] ∨ p.operator.columns? = none) : Restored n p predicates m q
  | below {n m : Nat} {p q q' : Plan} {cs : List Column} {i : NodeId} {e : Option Statistics}
      {predicates : List Predicate} (stacked : Stacked n q predicates m q')
      (added : Added m (.project cs) [q'] p) :
      Restored n ⟨.project cs, [q], i, e⟩ predicates (m + 1) p

theorem restored_of_returns {p q : Plan} {predicates : List Predicate} {s t : Progress}
    {e : Statistics} (h : Returns (restore p predicates) s q t) (hp : p.Estimated e) :
    Restored s.issued p predicates t.issued q := by
  cases predicates with
  | nil =>
      obtain ⟨rfl, rfl⟩ := returns_pure.mp h
      exact .above .nil (.inl rfl)
  | cons predicate predicates =>
      cases hp with
      | scan _ _ | select _ _ _ | product _ _ _ | join _ _ _ _ =>
          exact .above (stacked_of_returns h) (.inr rfl)
      | project _ hq _ =>
          obtain ⟨r, u, lifted, h⟩ := returns_bind.mp h
          obtain ⟨he, rfl⟩ := returns_lift.mp lifted
          cases he
          obtain ⟨q', v, stacked, h⟩ := returns_bind.mp h
          obtain ⟨added, rfl⟩ := returns_addNode.mp h
          exact .below (stacked_of_returns stacked) added

namespace Restored

variable {n m : Nat} {p q : Plan} {predicates : List Predicate} {s : Statistics}

theorem le (h : Restored n p predicates m q) : n ≤ m := by
  cases h with
  | above stacked _ => exact stacked.le
  | below stacked _ => exact Nat.le_succ_of_le stacked.le

theorem known (h : Restored n p predicates m q) (hp : p.Estimated s) : ∃ t, q.Estimated t := by
  cases h with
  | above stacked _ => exact stacked.estimated hp
  | below stacked added =>
      cases hp with
      | project _ hq _ =>
          obtain ⟨t, ht⟩ := stacked.estimated hq
          exact added.unary ht rfl

theorem scans (h : Restored n p predicates m q) : q.scans = p.scans := by
  cases h with
  | above stacked _ => exact stacked.scans
  | below stacked added =>
      cases added
      simp [stacked.scans]

theorem predicates_eq (h : Restored n p predicates m q) :
    (q.predicates : Multiset Predicate) = predicates + p.predicates := by
  cases h with
  | above stacked _ => exact stacked.predicates_eq
  | below stacked added =>
      cases added
      simpa [Operator.predicate?] using stacked.predicates_eq

theorem ids_le (h : Restored n p predicates m q) :
    (q.ids : Multiset NodeId) ≤ p.ids + numbers n m := by
  cases h with
  | above stacked _ => exact stacked.ids_eq.le
  | below stacked added => exact added.ids_unary_le stacked.ids_eq.le stacked.le

theorem every {P : Operator → Prop} (h : Restored n p predicates m q)
    (hs : ∀ predicate, P (.select predicate)) (hp : p.Every P) : q.Every P := by
  cases h with
  | above stacked _ => exact stacked.every hs hp
  | below stacked added =>
      cases added
      rw [every_unary] at hp ⊢
      exact ⟨hp.1, stacked.every hs hp.2⟩

theorem under {cs : List Column} {i : NodeId} {e : Option Statistics}
    (h : Restored n ⟨.project cs, [p], i, e⟩ predicates m q) :
    ∃ r j e' k k', q = ⟨.project cs, [r], j, e'⟩ ∧ Stacked k p predicates k' r := by
  cases h with
  | above stacked bare =>
      obtain rfl := bare.resolve_right fun h => by cases h
      cases stacked
      exact ⟨p, i, e, 0, 0, rfl, .nil⟩
  | below stacked added =>
      cases added
      exact ⟨_, _, _, _, _, rfl, stacked⟩

theorem bare (h : Restored n p predicates m q) (hp : p.operator.columns? = none) :
    ∃ k k', Stacked k p predicates k' q := by
  cases h with
  | above stacked _ => exact ⟨_, _, stacked⟩
  | below _ _ => cases hp

end Restored

/-- A walk along a whole chain, with nothing waiting before or after. -/
def Walked (n : Nat) (p : Plan) (detached : List Predicate) (m : Nat) (q : Plan) : Prop :=
  ∃ c, Reordered n p .start m q c ∧ c.waiting = [] ∧ c.detached = detached

namespace Walked

variable {n m : Nat} {p q : Plan} {detached : List Predicate} {s : Statistics}

theorem le (h : Walked n p detached m q) : n ≤ m := by
  obtain ⟨c, walk, _, _⟩ := h
  exact walk.le

theorem known (h : Walked n p detached m q) (hp : p.Estimated s) : ∃ t, q.Estimated t := by
  obtain ⟨c, walk, _, _⟩ := h
  exact (known_cons.mp (walk.known (known_cons.mpr ⟨⟨s, hp⟩, List.forall_mem_nil _⟩))).1

theorem scans (h : Walked n p detached m q) : q.scans.Perm p.scans := by
  obtain ⟨c, walk, hw, _⟩ := h
  have hs := walk.scans
  rw [hw] at hs
  simpa [total_cons, total_nil, Chain.start] using hs

theorem predicates (h : Walked n p detached m q) :
    (q.predicates : Multiset Predicate) + detached = p.predicates := by
  obtain ⟨c, walk, hw, hd⟩ := h
  have hs := walk.predicates
  rw [hw, hd] at hs
  simpa [total_cons, total_nil, Chain.start] using hs

theorem ids_le (h : Walked n p detached m q) :
    (q.ids : Multiset NodeId) ≤ p.ids + numbers n m := by
  obtain ⟨c, walk, hw, _⟩ := h
  have hi := walk.ids_le
  rw [hw] at hi
  simpa [total_cons, total_nil, Chain.start] using hi

theorem every {P : Operator → Prop} (h : Walked n p detached m q) (hp : p.Every P) :
    q.Every P := by
  obtain ⟨c, walk, _, _⟩ := h
  exact walk.every (List.forall_mem_cons.mpr ⟨hp, List.forall_mem_nil _⟩) q List.mem_cons_self

theorem columns (h : Walked n p detached m q) (hu : Unbroken p.chain) (a : Column) :
    a ∈ q.columns ↔ a ∈ p.columns := by
  obtain ⟨c, walk, hw, _⟩ := h
  have ht := walk.total_columns hu rfl
  rw [hw] at ht
  have hp : (q.columns : Multiset Column) = p.columns := by
    simpa [total_cons, total_nil, Chain.start] using ht
  exact (Multiset.coe_eq_coe.mp hp).mem_iff

theorem covered (h : Walked n p detached m q) (hp : p.Estimated s) (hu : Unbroken p.chain) :
    ∀ predicate ∈ detached, predicate.columns ⊆ p.columns := by
  obtain ⟨c, walk, _, rfl⟩ := h
  exact fun predicate hm => (walk.covered hp hu rfl predicate hm).resolve_left List.not_mem_nil

theorem bare (h : Walked n p detached m q) (hu : Unbroken p.chain)
    (hb : p.operator.columns? = none) : q.operator.columns? = none := by
  obtain ⟨c, walk, _, _⟩ := h
  exact walk.bare hu rfl hb

theorem rows_perm {db : Database} (h : Walked n p detached m q) (hp : p.Estimated s)
    (hf : p.ProjectFree) (hd : p.DistinctColumns) (hdb : p.Fitted db) :
    (p.rows db).Perm ((q.rows db).filter fun row =>
      ∀ predicate ∈ detached, row.Satisfies predicate) := by
  obtain ⟨c, walk, hw, rfl⟩ := h
  have hc : Crossable db [p] := by
    refine ⟨known_cons.mpr ⟨⟨s, hp⟩, List.forall_mem_nil _⟩, fun r hr => hdb r ?_, ?_⟩
    · simpa [total] using hr
    · simpa [total, DistinctColumns] using hd
  obtain ⟨new, hn, hrows⟩ := walk.rows_perm hf hc
  rw [Chain.start, List.nil_append] at hn
  rw [hw, crossed_singleton, Chain.start, crossed_singleton, ← hn] at hrows
  exact hrows

theorem under {cs : List Column} {i : NodeId} {e : Option Statistics}
    (h : Walked n ⟨.project cs, [p], i, e⟩ detached m q) :
    ∃ r j e' k, q = ⟨.project cs, [r], j, e'⟩ ∧ Walked n p detached k r := by
  obtain ⟨c, walk, hw, hd⟩ := h
  cases walk with
  | leaf bare => cases bare
  | project input added =>
      cases added
      exact ⟨_, _, _, _, rfl, c, input, hw, hd⟩

end Walked

/-- A chain in order, below the selections it has lost. -/
inductive Settled (p q : Plan) : Prop
  | mk {n m k j : Nat} {r : Plan} {detached : List Predicate} (walked : Walked n p detached m r)
      (stacked : Stacked k r detached j q)

namespace Settled

variable {p q : Plan} {s : Statistics} {db : Database}

theorem projectFree (h : Settled p q) (hf : p.ProjectFree) : q.ProjectFree := by
  obtain ⟨walked, stacked⟩ := h
  exact stacked.every (fun _ => rfl) (walked.every hf)

theorem columns (h : Settled p q) (hu : Unbroken p.chain) (c : Column) :
    c ∈ q.columns ↔ c ∈ p.columns := by
  obtain ⟨walked, stacked⟩ := h
  rw [stacked.columns]
  exact walked.columns hu c

theorem rows_perm (h : Settled p q) (hp : p.Estimated s) (hf : p.ProjectFree)
    (hd : p.DistinctColumns) (hdb : p.Fitted db) : (q.rows db).Perm (p.rows db) := by
  obtain ⟨walked, stacked⟩ := h
  rw [stacked.rows]
  exact (walked.rows_perm hp hf hd hdb).symm

end Settled

/-- The walk along the chain at the root, and what it has detached put back. -/
inductive Ran (n : Nat) (p : Plan) (m : Nat) (q : Plan) : Prop
  | mk {k : Nat} {r : Plan} {detached : List Predicate} (walked : Walked n p detached k r)
      (restored : Restored k r detached m q)

theorem walked_of_returns {p : Plan} {x : Plan × Chain} {s t : Progress} {e : Statistics}
    (h : Returns (reorder p .start) s x t) (hp : p.Estimated e) :
    Walked s.issued p x.2.detached t.issued x.1 := by
  have walk := reordered_of_returns h hp
  exact ⟨x.2, walk, List.eq_nil_of_length_eq_zero walk.length_eq, rfl⟩

theorem ran_of_returns {p q : Plan} {s t : Progress} {e : Statistics}
    (h : Returns (run p) s q t) (hp : p.Estimated e) : Ran s.issued p t.issued q := by
  obtain ⟨⟨r, c⟩, u, reordered, h⟩ := returns_bind.mp h
  have walked := walked_of_returns reordered hp
  obtain ⟨_, hr⟩ := walked.known hp
  exact .mk walked (restored_of_returns h hr)

namespace Ran

variable {n m : Nat} {p q : Plan} {s : Statistics}

theorem le (h : Ran n p m q) : n ≤ m := by
  obtain ⟨walked, restored⟩ := h
  exact walked.le.trans restored.le

theorem known (h : Ran n p m q) (hp : p.Estimated s) : ∃ t, q.Estimated t := by
  obtain ⟨walked, restored⟩ := h
  obtain ⟨_, hr⟩ := walked.known hp
  exact restored.known hr

theorem scans (h : Ran n p m q) : q.scans.Perm p.scans := by
  obtain ⟨walked, restored⟩ := h
  rw [restored.scans]
  exact walked.scans

theorem predicates (h : Ran n p m q) : q.predicates.Perm p.predicates := by
  obtain ⟨walked, restored⟩ := h
  rw [← Multiset.coe_eq_coe, restored.predicates_eq, add_comm]
  exact walked.predicates

theorem ids_le (h : Ran n p m q) : (q.ids : Multiset NodeId) ≤ p.ids + numbers n m := by
  obtain ⟨walked, restored⟩ := h
  exact restored.ids_le.trans (ids_le_of_add walked.ids_le walked.le restored.le)

theorem every {P : Operator → Prop} (h : Ran n p m q) (hs : ∀ predicate, P (.select predicate))
    (hp : p.Every P) : q.Every P := by
  obtain ⟨walked, restored⟩ := h
  exact restored.every hs (walked.every hp)

theorem bare (h : Ran n p m q) (hu : Unbroken p.chain) (hb : p.operator.columns? = none) :
    Settled p q := by
  obtain ⟨walked, restored⟩ := h
  obtain ⟨_, _, stacked⟩ := restored.bare (walked.bare hu hb)
  exact .mk walked stacked

theorem under {cs : List Column} {i : NodeId} {e : Option Statistics}
    (h : Ran n ⟨.project cs, [p], i, e⟩ m q) :
    ∃ r j e', q = ⟨.project cs, [r], j, e'⟩ ∧ Settled p r := by
  obtain ⟨walked, restored⟩ := h
  obtain ⟨_, _, _, _, rfl, chain⟩ := walked.under
  obtain ⟨r, j, e', _, _, rfl, stacked⟩ := restored.under
  exact ⟨r, j, e', rfl, .mk chain stacked⟩

theorem rooted {o : Option (List Column)} (h : Ran n p m q) (hr : Rooted o p) : Rooted o q := by
  cases hr with
  | bare hf => exact .bare ((h.bare hf.unbroken (hf _ (mem_preorder_self p))).projectFree hf)
  | under hf =>
      obtain ⟨r, j, e', rfl, settled⟩ := h.under
      exact .under (settled.projectFree hf)

theorem columns (h : Ran n p m q) (hp : p.Estimated s) (hu : Unbroken p.chain.tail) (c : Column) :
    c ∈ q.columns ↔ c ∈ p.columns := by
  by_cases hb : p.operator.columns? = none
  · have hup := hp.unbroken hb hu
    exact (h.bare hup hb).columns hup c
  · cases hp with
    | project _ _ _ =>
        obtain ⟨r, j, e', rfl, settled⟩ := h.under
        simp only [Plan.columns, List.mem_filter, settled.columns hu c]
    | scan _ _ | select _ _ _ | product _ _ _ | join _ _ _ _ => exact absurd rfl hb

theorem rows_perm {o : Option (List Column)} {db : Database} (h : Ran n p m q) (hr : Rooted o p)
    (hp : p.Estimated s) (hd : p.DistinctColumns) (hdb : p.Fitted db) :
    (q.rows db).Perm (p.rows db) := by
  cases hr with
  | bare hf =>
      exact (h.bare hf.unbroken (hf _ (mem_preorder_self p))).rows_perm hp hf hd hdb
  | under hf =>
      obtain ⟨r, j, e', rfl, settled⟩ := h.under
      cases hp with
      | project _ hq _ => exact (settled.rows_perm hq hf hd.unary hdb.unary).map _

end Ran

section Run

variable {p q : Plan} {s t : Progress} {e : Statistics} {o : Option (List Column)} {db : Database}

theorem renewed_of_run (h : Returns (run p) s q t) (hp : p.Estimated e) :
    Renewed s.issued p t.issued q :=
  ⟨(ran_of_returns h hp).le, (ran_of_returns h hp).known hp, (ran_of_returns h hp).scans⟩

theorem conserved_of_run (h : Returns (run p) s q t) (hp : p.Estimated e) :
    Conserved s.issued p t.issued q :=
  ⟨Predicate.forms_perm (ran_of_returns h hp).predicates, (ran_of_returns h hp).ids_le⟩

theorem rooted_of_run (h : Returns (run p) s q t) (hp : p.Estimated e) (hr : Rooted o p) :
    Rooted o q :=
  (ran_of_returns h hp).rooted hr

theorem faithful_of_run (h : Returns (run p) s q t) (hp : p.Estimated e) (hr : Rooted o p)
    (hd : p.DistinctColumns) (hdb : p.Fitted db) : Faithful db p q where
  columns := (ran_of_returns h hp).columns hp hr.unbroken
  rows := (ran_of_returns h hp).rows_perm hr hp hd hdb

end Run

end QueryPlan.ReorderProducts
