import QueryPlan.Proofs.ReorderProducts.Walk

/-!
The rows of all pairs along a chain. The plans at hand are paired in whatever order
they stand, so a walk along the chain keeps the pairs, as far as they satisfy the
predicates it has detached.
-/

namespace QueryPlan.ReorderProducts

open Planner Plan

/-- Each row of one plan beside each row of the next, over a list of plans. -/
def crossed (db : Database) (ps : List Plan) : List Row :=
  ps.foldr (fun p rows => pairs (p.rows db) rows) [fun _ => none]

/-- The plans are estimated, share no columns, and scan relations stored as expected. -/
structure Crossable (db : Database) (ps : List Plan) : Prop where
  known : Known ps
  fits : ∀ r ∈ total Plan.scans ps, db.Fits r
  distinct : (total Plan.leafColumns ps).Nodup

theorem total_leafColumns {ps qs : List Plan} (h : total Plan.scans ps = total Plan.scans qs) :
    total Plan.leafColumns ps = total Plan.leafColumns qs := by
  have hb (ps : List Plan) : ps.flatMap Plan.leafColumns =
      (ps.flatMap Plan.scans).flatMap fun r => r.statistics.columns :=
    List.flatMap_assoc.symm
  rw [total, total, hb, hb]
  exact Multiset.coe_eq_coe.mpr ((Multiset.coe_eq_coe.mp h).flatMap_right _)

namespace Crossable

variable {db : Database} {p q l r : Plan} {ps qs : List Plan}

theorem of_scans (h : Crossable db ps) (hk : Known qs)
    (hs : total Plan.scans qs = total Plan.scans ps) : Crossable db qs :=
  ⟨hk, fun r hr => h.fits r (hs ▸ hr), total_leafColumns hs ▸ h.distinct⟩

theorem perm (h : Crossable db ps) (hq : qs.Perm ps) : Crossable db qs :=
  h.of_scans (h.known.perm hq) (total_perm hq)

theorem tail (h : Crossable db (p :: ps)) : Crossable db ps := by
  obtain ⟨hk, hf, hd⟩ := h
  rw [total_cons] at hf hd
  exact ⟨(known_cons.mp hk).2, fun r hr => hf r (Multiset.mem_add.mpr (.inr hr)),
    (Multiset.nodup_add.mp hd).2.1⟩

theorem select {predicate : Predicate} {i : NodeId} {e : Option Statistics}
    (h : Crossable db (⟨.select predicate, [q], i, e⟩ :: ps)) : Crossable db (q :: ps) := by
  obtain ⟨⟨_, hp⟩, hps⟩ := known_cons.mp h.known
  refine h.of_scans ?_ (by simp [total_cons, Operator.relation?])
  cases hp with
  | select _ hq _ => exact known_cons.mpr ⟨⟨_, hq⟩, hps⟩

theorem product {i : NodeId} {e : Option Statistics}
    (h : Crossable db (⟨.product, [l, r], i, e⟩ :: ps)) : Crossable db (l :: r :: ps) := by
  apply h.of_scans h.known.product
  simp [total_cons, Operator.relation?, ← Multiset.coe_add, add_assoc]

theorem fitted (h : Crossable db (p :: ps)) : p.Fitted db := by
  intro r hr
  apply h.fits r
  rw [total_cons]
  exact Multiset.mem_add.mpr (.inl hr)

theorem fills (h : Crossable db (p :: ps)) : ∀ row ∈ p.rows db, row.Fills p.columns := by
  obtain ⟨_, hp⟩ := (known_cons.mp h.known).1
  exact hp.fills h.fitted

theorem disjoint (h : Crossable db (p :: q :: ps)) : p.columns.Disjoint q.columns := by
  obtain ⟨⟨_, hp⟩, ⟨_, hq⟩, _⟩ := (known_cons.mp h.known).imp id known_cons.mp
  have hd := h.distinct
  rw [total_cons, total_cons, Multiset.nodup_add] at hd
  intro c hc hc'
  have hn := Multiset.disjoint_left.mp hd.2.2 (hp.columns_subset hc)
  exact hn (Multiset.mem_add.mpr (.inl (hq.columns_subset hc')))

end Crossable

/-- The order of the plans does not matter to the pairs. -/
theorem crossed_perm {db : Database} {ps qs : List Plan} (hp : ps.Perm qs)
    (h : Crossable db ps) : (crossed db ps).Perm (crossed db qs) := by
  induction hp with
  | nil => exact .refl _
  | cons p _ ih => exact pairs_perm (.refl _) (ih h.tail)
  | swap p q ps =>
      have hc : ∀ a ∈ q.rows db, ∀ b ∈ p.rows db, a.merge b = b.merge a := fun a ha b hb =>
        Row.merge_comm (h.fills a ha) (h.tail.fills b hb) h.disjoint
      have hs := pairs_perm (pairs_comm hc) (.refl (crossed db ps))
      rw [pairs_assoc, pairs_assoc] at hs
      exact hs
  | trans hpq _ ihpq ihqr => exact (ihpq h).trans (ihqr (h.perm hpq.symm))

theorem crossed_singleton {db : Database} {p : Plan} : crossed db [p] = p.rows db := by
  have hm (a : Row) : a.merge (fun _ => none) = a := by
    funext c
    simp [Row.merge]
  simp [crossed, pairs, hm]

theorem crossed_select {db : Database} {predicate : Predicate} {q : Plan} {ps : List Plan}
    {i : NodeId} {e : Option Statistics} (hq : ∀ row ∈ q.rows db, row.Fills q.columns)
    (hp : predicate.columns ⊆ q.columns) :
    crossed db (⟨.select predicate, [q], i, e⟩ :: ps) =
      (crossed db (q :: ps)).filter fun row => row.Satisfies predicate :=
  pairs_filter_left fun a ha _ _ => decide_eq_decide.mpr (Row.satisfies_merge_left (hq a ha) hp)

theorem crossed_product {db : Database} {l r : Plan} {ps : List Plan} {i : NodeId}
    {e : Option Statistics} :
    crossed db (⟨.product, [l, r], i, e⟩ :: ps) = crossed db (l :: r :: ps) :=
  pairs_assoc

namespace Reordered

variable {n m : Nat} {p q : Plan} {c c' : Chain} {db : Database}

theorem crossable (h : Reordered n p c m q c') (hc : Crossable db (p :: c.waiting)) :
    Crossable db (q :: c'.waiting) :=
  hc.of_scans (h.known hc.known) h.scans

/-- The pairs are those of before, as far as they satisfy what has been detached. -/
theorem rows_perm (h : Reordered n p c m q c') (hp : p.ProjectFree)
    (hc : Crossable db (p :: c.waiting)) :
    ∃ new, c'.detached = c.detached ++ new ∧
      (crossed db (p :: c.waiting)).Perm
        ((crossed db (q :: c'.waiting)).filter fun row =>
          ∀ predicate ∈ new, row.Satisfies predicate) := by
  induction h with
  | leaf => exact ⟨[], by simp, by simp⟩
  | kept input added ih =>
      have hcq := hc.select
      obtain ⟨new, hn, hrows⟩ := ih hp.unary hcq
      have hcq' := input.crossable hcq
      obtain ⟨_, hs⟩ := (known_cons.mp hc.known).1
      obtain ⟨_, ht⟩ := (known_cons.mp hcq'.known).1
      obtain ⟨_, he', _⟩ := added.select ht
      cases added
      refine ⟨new, hn, ?_⟩
      cases hs with
      | select _ hq he =>
          rw [crossed_select hcq.fills (hq.covered_of_select he),
            crossed_select hcq'.fills (ht.covered_of_select he'), List.filter_comm]
          exact hrows.filter _
  | @detached _ predicate q q' _ _ c c' input _ ih =>
      have hcq := hc.select
      obtain ⟨new, hn, hrows⟩ := ih hp.unary hcq
      obtain ⟨_, hs⟩ := (known_cons.mp hc.known).1
      refine ⟨new ++ [predicate], by simp [hn], ?_⟩
      cases hs with
      | select _ hq he =>
          rw [crossed_select hcq.fills (hq.covered_of_select he)]
          refine (hrows.filter _).trans (List.Perm.of_eq ?_)
          rw [List.filter_filter]
          refine List.filter_congr fun row _ => ?_
          simp [or_imp, forall_and, and_comm]
  | project _ _ _ =>
      exact absurd hp not_projectFree_project
  | product input last onLeft onRight added ih =>
      cases added
      have hcl := hc.product.perm perm_of_operands
      have hplaced := crossed_perm (perm_of_placed last onLeft onRight).symm (input.crossable hcl)
      have hoperands := crossed_perm perm_of_operands.symm hc.product
      obtain ⟨new, hn, hrows⟩ := ih hp.binary.1 hcl
      refine ⟨new, ?_, ?_⟩
      · rw [onRight.detached_eq, onLeft.detached_eq, hn]
      · rw [crossed_product, crossed_product]
        exact hoperands.trans (hrows.trans (hplaced.filter _))

end Reordered

end QueryPlan.ReorderProducts
