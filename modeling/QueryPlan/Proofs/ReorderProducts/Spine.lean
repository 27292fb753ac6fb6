import QueryPlan.Proofs.Consistent
import Mathlib.Algebra.Order.BigOperators.Group.List
import Mathlib.Data.List.Sort

/-!
Chains of products laid out. The spine of a plan is the products along its left inputs,
its operands are what they multiply. With no selection in between, a product has as many
tuples as its operands multiply to, held at the limit; so the smallest operands at the
bottom make every product of the spine as small as it can be.
-/

namespace QueryPlan.Plan

/-- The products along the left inputs, the deepest first. -/
def spine : Plan → List Plan
  | ⟨.select _, [q], _, _⟩ | ⟨.project _, [q], _, _⟩ => spine q
  | ⟨.product, [l, r], i, e⟩ => spine l ++ [⟨.product, [l, r], i, e⟩]
  | _ => []

/-- The inputs of the deepest product of the spine, and the right inputs of the others upwards. -/
def operands (p : Plan) : List Plan :=
  match p.spine with
  | [] => []
  | x :: xs => x.inputs ++ xs.flatMap fun y => y.inputs.tail

def ProductFree (p : Plan) : Prop :=
  p.Every fun op => op ≠ .product

instance (p : Plan) : Decidable p.ProductFree :=
  inferInstanceAs (Decidable (p.Every _))

/-- No selection of a chain stands above a product. -/
def Unselected (chain : List Operator) : Prop :=
  chain.Pairwise fun a b => b = .product → a.predicate? = none

instance (chain : List Operator) : Decidable (Unselected chain) :=
  inferInstanceAs (Decidable (chain.Pairwise _))

section Spine

variable {p q l r t : Plan} {i : NodeId} {e : Option Statistics} {s : Statistics}

theorem spine_project {cs : List Column} : (Plan.mk (.project cs) [q] i e).spine = q.spine :=
  rfl

theorem spine_product :
    (Plan.mk .product [l, r] i e).spine = l.spine ++ [⟨.product, [l, r], i, e⟩] :=
  rfl

theorem operands_congr (h : q.spine = p.spine) : q.operands = p.operands := by
  rw [operands, operands, h]

/-- At the deepest product the left input is an operand itself. -/
theorem operands_deepest (h : l.spine = []) : (Plan.mk .product [l, r] i e).operands = [l, r] := by
  simp [operands, spine_product, h]

theorem operands_product (h : l.spine ≠ []) :
    (Plan.mk .product [l, r] i e).operands = l.operands ++ [r] := by
  obtain ⟨x, xs, hs⟩ := List.exists_cons_of_ne_nil h
  simp [operands, spine_product, hs]

theorem operands_subset : l.operands ++ [r] ⊆ (Plan.mk .product [l, r] i e).operands := by
  by_cases h : l.spine = []
  · have hl : l.operands = [] := by rw [operands, h]
    rw [operands_deepest h, hl]
    exact List.subset_cons_self _ _
  · rw [operands_product h]
    exact List.Subset.refl _

theorem length_operands (h : p.spine ≠ []) : p.operands.length = p.spine.length + 1 := by
  fun_induction spine p with
  | case1 _ q _ _ ih | case2 _ q _ _ ih => exact ih h
  | case3 l r i e ih =>
      by_cases hl : l.spine = []
      · simp [operands_deepest hl, hl]
      · simp [operands_product hl, ih hl]
  | case4 => exact absurd rfl h

theorem length_spine : p.spine.length = p.operands.length - 1 := by
  by_cases h : p.spine = []
  · rw [operands, h]
    rfl
  · rw [length_operands h, Nat.add_sub_cancel]

theorem ProductFree.spine_eq (h : p.ProductFree) : p.spine = [] := by
  fun_induction spine p with
  | case1 _ q _ _ ih | case2 _ q _ _ ih => exact ih ((every_unary _).mp h).2
  | case3 l r i e ih => exact absurd rfl ((every_binary _).mp h).1
  | case4 => rfl

theorem product_mem_chain : .product ∈ p.chain ↔ p.spine ≠ [] := by
  fun_induction spine p with
  | case1 _ q _ _ ih | case2 _ q _ _ ih => simpa [chain] using ih
  | case3 l r i e ih => simp [chain]
  | case4 p hs hp hb =>
      unfold chain
      split
      · exact (hs _ _ _ _ rfl).elim
      · exact (hp _ _ _ _ rfl).elim
      · exact (hb _ _ _ _ rfl).elim
      · simp

/-- The operands of a product of the spine are the first ones of the whole. -/
theorem operands_spine {k : Nat} (h : p.spine[k]? = some t) :
    t.operands = p.operands.take (k + 2) := by
  fun_induction spine p with
  | case1 _ q _ _ ih | case2 _ q _ _ ih => exact ih h
  | case3 l r i e ih =>
      by_cases hk : k < l.spine.length
      · have hl := List.ne_nil_of_length_pos (Nat.zero_lt_of_lt hk)
        rw [List.getElem?_append_left hk] at h
        rw [ih h, operands_product hl, List.take_append_of_le_length]
        rw [length_operands hl]
        omega
      · rw [List.getElem?_append_right (Nat.le_of_not_lt hk), List.getElem?_singleton] at h
        split at h
        · obtain rfl := Option.some.inj h
          rw [List.take_of_length_le]
          rw [length_operands (by simp [spine_product]), spine_product, List.length_append,
            List.length_singleton]
          omega
        · cases h
  | case4 => cases h

theorem spine_subset : p.spine ⊆ p.preorder := by
  fun_induction spine p with
  | case1 _ q _ _ ih | case2 _ q _ _ ih =>
      rw [preorder_unary]
      exact List.subset_cons_of_subset _ ih
  | case3 l r i e ih =>
      rw [preorder_binary]
      refine List.append_subset.mpr ⟨?_, by simp⟩
      exact List.subset_cons_of_subset _ (List.subset_append_of_subset_left _ ih)
  | case4 => exact List.nil_subset _

theorem chain_spine (h : t ∈ p.spine) : t.chain.Sublist p.chain ∧ t.spine ≠ [] := by
  fun_induction spine p with
  | case1 _ q _ _ ih | case2 _ q _ _ ih =>
      exact ⟨(ih h).1.trans (List.sublist_cons_self _ _), (ih h).2⟩
  | case3 l r i e ih =>
      obtain h | h := List.mem_append.mp h
      · exact ⟨(ih h).1.trans (List.sublist_cons_self _ _), (ih h).2⟩
      · rw [List.mem_singleton.mp h]
        exact ⟨.refl _, by simp [spine_product]⟩
  | case4 => cases h

theorem tuples_unnumbered : p.unnumbered.tuples = p.tuples := by
  cases p
  rfl

/-- A chain without selections has as many tuples as its operands multiply to, if that is within
the limit. -/
theorem Estimated.tuples_of_unselected (hp : p.Estimated s) (hu : Unselected p.chain)
    (hn : p.spine ≠ []) : p.tuples = min (p.operands.map tuples).prod Count.limit := by
  induction hp with
  | scan _ _ | join _ _ _ _ _ _ => exact absurd rfl hn
  | select i _ _ _ => cases (List.pairwise_cons.mp hu).1 _ (product_mem_chain.mpr hn) rfl
  | @project q s t cs i hq he ih =>
      rw [operands_congr spine_project, ← ih hu.of_cons hn, (Estimated.project i hq he).tuples_eq,
        hq.tuples_eq, (Statistics.project_eq_ok.mp he).2]
  | @product l r s t i hl hr ihl _ =>
      rw [(Estimated.product i hl hr).tuples_eq, Statistics.product, Count.toNat_times,
        ← hl.tuples_eq, ← hr.tuples_eq]
      by_cases hs : l.spine = []
      · simp [operands_deepest hs]
      · rw [operands_product hs, ihl hu.of_cons hs, Count.min_mul_min]
        simp

/-- So has each product of it. -/
theorem Estimated.tuples_spine {k : Nat} (hp : p.Estimated s) (hu : Unselected p.chain)
    (h : p.spine[k]? = some t) :
    t.tuples = min ((p.operands.take (k + 2)).map tuples).prod Count.limit := by
  have ht := List.mem_of_getElem? h
  obtain ⟨⟨_, hte⟩, _⟩ := hp.of_mem (spine_subset ht)
  obtain ⟨hc, hn⟩ := chain_spine ht
  rw [← operands_spine h]
  exact hte.tuples_of_unselected (hu.sublist hc) hn

/-- No part of a list multiplies to less than as many of its smallest numbers. -/
theorem prod_take_le {ms ns : List Nat} (h : ns.Sublist ms) (hm : ms.Pairwise (· ≤ ·)) :
    (ms.take ns.length).prod ≤ ns.prod := by
  induction h with
  | slnil => exact Nat.le_refl _
  | @cons ns ms a h ih =>
      refine Nat.le_trans ?_ (ih hm.of_cons)
      cases hn : ns.length with
      | zero => simp
      | succ n =>
          have hlt : n < ms.length := Nat.lt_of_succ_le (by simpa [hn] using h.length_le)
          rw [List.take_succ_cons, List.prod_cons, List.take_succ_eq_append_getElem hlt,
            List.prod_append, List.prod_singleton, Nat.mul_comm]
          exact Nat.mul_le_mul_left _ ((List.pairwise_cons.mp hm).1 _ (List.getElem_mem hlt))
  | cons_cons a h ih =>
      rw [List.length_cons, List.take_succ_cons, List.prod_cons, List.prod_cons]
      exact Nat.mul_le_mul_left a (ih hm.of_cons)

theorem insertionSort_congr {ms ns : List Nat} (h : ms.Perm ns) :
    ms.insertionSort (· ≤ ·) = ns.insertionSort (· ≤ ·) :=
  List.Perm.eq_of_pairwise' (List.pairwise_insertionSort _ _) (List.pairwise_insertionSort _ _)
    ((List.perm_insertionSort _ _).trans (h.trans (List.perm_insertionSort _ _).symm))

theorem prod_take_sort_le (ns : List Nat) (k : Nat) :
    ((ns.insertionSort (· ≤ ·)).take k).prod ≤ (ns.take k).prod := by
  have hsorted := List.pairwise_insertionSort (r := (· ≤ ·)) (ns.take k)
  have hperm := List.perm_insertionSort (· ≤ ·) (ns.take k)
  have hpart : ((ns.take k).insertionSort (· ≤ ·)).Subperm (ns.insertionSort (· ≤ ·)) :=
    hperm.subperm.trans
      ((List.take_sublist k ns).subperm.trans (List.perm_insertionSort _ ns).symm.subperm)
  have hwhole := List.pairwise_insertionSort (r := (· ≤ ·)) ns
  have hle := prod_take_le (List.sublist_of_subperm_of_pairwise hpart hsorted hwhole) hwhole
  rwa [hperm.prod_eq, hperm.length_eq, List.length_take, ← List.length_insertionSort (· ≤ ·) ns,
    ← List.take_eq_take_min] at hle

/-- With its smallest operands at the bottom, a chain has the smallest products. -/
theorem Estimated.spine_least {u : Statistics} (hp : p.Estimated s) (hq : q.Estimated u)
    (hup : Unselected p.chain) (huq : Unselected q.chain)
    (hpq : (q.operands.map tuples).Perm (p.operands.map tuples))
    (hleast : ∀ k, 1 ≤ k → ((p.operands.map tuples).take (k + 1)).Perm
      (((p.operands.map tuples).insertionSort (· ≤ ·)).take (k + 1))) :
    List.Forall₂ (fun a b => a.tuples ≤ b.tuples) p.spine q.spine := by
  have hlength : p.spine.length = q.spine.length := by
    have hops := hpq.length_eq
    rw [List.length_map, List.length_map] at hops
    rw [length_spine, length_spine, hops]
  refine List.forall₂_iff_get.mpr ⟨hlength, fun k hk hk' => ?_⟩
  rw [List.get_eq_getElem, List.get_eq_getElem, hp.tuples_spine hup (List.getElem?_eq_getElem hk),
    hq.tuples_spine huq (List.getElem?_eq_getElem hk'), List.map_take, List.map_take,
    (hleast (k + 1) (Nat.le_add_left 1 k)).prod_eq, ← insertionSort_congr hpq]
  exact min_le_min_right _ (prod_take_sort_le _ _)

end Spine

end QueryPlan.Plan
