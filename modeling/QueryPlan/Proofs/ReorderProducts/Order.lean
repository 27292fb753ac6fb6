import QueryPlan.Proofs.ReorderProducts.Spine
import QueryPlan.Proofs.ReorderProducts.Success

/-!
The order of a chain after reordering. What a trade receives is at most as large as all
that still waits, so the right inputs come to rise from the bottom up. The lowest of
them is no candidate for the place of the left input, and may stay smaller than it.
-/

namespace QueryPlan.ReorderProducts

open Planner Plan

theorem Exchanged.deepestAhead_eq {c c' : Chain} {p q : Plan} (h : Exchanged c p q c') :
    c'.deepestAhead = c.deepestAhead := by
  cases h <;> rfl

theorem leastBelow_eq_none {bound : Count} {ns : List Count} (h : leastBelow bound ns = none) :
    ∀ n ∈ ns, bound ≤ n := by
  induction ns with
  | nil => exact List.forall_mem_nil _
  | cons n ns ih =>
      rw [leastBelow] at h
      split at h
      · cases h
      · rename_i hn
        exact List.forall_mem_cons.mpr ⟨UInt64.not_lt.mp hn, ih (Option.map_eq_none_iff.mp h)⟩

theorem leastBelow_eq_some {bound : Count} {ns : List Count} {i : Nat}
    (h : leastBelow bound ns = some i) :
    ∃ m, ns[i]? = some m ∧ m < bound ∧ ∀ n ∈ ns, m ≤ n := by
  induction ns generalizing bound i with
  | nil => cases h
  | cons n ns ih =>
      rw [leastBelow] at h
      split at h
      · rename_i hn
        cases hl : leastBelow n ns with
        | none =>
            obtain rfl : 0 = i := by simpa [hl] using h
            exact ⟨n, rfl, hn, List.forall_mem_cons.mpr ⟨UInt64.le_refl n, leastBelow_eq_none hl⟩⟩
        | some j =>
            obtain rfl : j + 1 = i := by simpa [hl] using h
            obtain ⟨m, hm, hlt, hle⟩ := ih hl
            exact ⟨m, by simpa using hm, UInt64.lt_trans hlt hn,
              List.forall_mem_cons.mpr ⟨UInt64.le_of_lt hlt, hle⟩⟩
      · rename_i hn
        obtain ⟨j, hl, rfl⟩ := Option.map_eq_some_iff.mp h
        obtain ⟨m, hm, hlt, hle⟩ := ih hl
        have hmn := UInt64.le_of_lt (UInt64.lt_of_lt_of_le hlt (UInt64.not_lt.mp hn))
        exact ⟨m, by simpa using hm, hlt, List.forall_mem_cons.mpr ⟨hmn, hle⟩⟩

theorem tuples_of_output {p : Plan} {s : Statistics} (h : p.output = .ok s) :
    p.tuples = s.tuples.toNat := by
  unfold output at h
  split at h
  · rename_i t ht
    rw [Plan.tuples, ht, Except.ok.inj h]
    rfl
  · cases h

theorem tuples_of_mapM {ps : List Plan} {ns : List Count}
    (h : (ps.mapM fun p => return (← p.output).tuples) = (.ok ns : Except Error _)) :
    ps.map Plan.tuples = ns.map UInt64.toNat := by
  induction ps generalizing ns with
  | nil =>
      cases h
      rfl
  | cons p ps ih =>
      simp only [List.mapM_cons, bind_eq_ok, pure_eq_ok] at h
      obtain ⟨_, ⟨s, hs, rfl⟩, ms, hms, rfl⟩ := h
      have hps := ih (by simpa only [bind_eq_ok, pure_eq_ok] using hms)
      rw [List.map_cons, List.map_cons, tuples_of_output hs, hps]

/-- A trade looks at nothing but the tuples. -/
theorem trade?_counts {p : Plan} {waiting : List Plan} {o : Option Trade}
    (h : trade? p waiting = .ok o) :
    ∃ (bound : Count) (ns : List Count), p.tuples = bound.toNat ∧
      waiting.map Plan.tuples = ns.map UInt64.toNat ∧
      o = (leastBelow bound ns).bind fun i =>
        waiting[i]?.map fun q => ⟨q, waiting.set i p⟩ := by
  obtain ⟨s, hs, h⟩ := bind_eq_ok.mp h
  obtain ⟨ns, hns, h⟩ := bind_eq_ok.mp h
  exact ⟨s.tuples, ns, tuples_of_output hs, tuples_of_mapM hns, pure_eq_ok.mp h⟩

section Counts

variable {ps : List Plan} {ns : List Count}

theorem le_of_counts {m : Nat} (hc : ps.map Plan.tuples = ns.map UInt64.toNat)
    (hm : ∀ n ∈ ns, m ≤ n.toNat) : ∀ x ∈ ps, m ≤ x.tuples := by
  intro x hx
  obtain ⟨n, hn, hxn⟩ := List.mem_map.mp (hc ▸ List.mem_map_of_mem hx)
  exact hxn ▸ hm n hn

theorem getElem?_of_counts {i : Nat} {m : Count} (hc : ps.map Plan.tuples = ns.map UInt64.toNat)
    (hm : ns[i]? = some m) : ∃ q, ps[i]? = some q ∧ q.tuples = m.toNat := by
  have hi : (ps.map Plan.tuples)[i]? = some m.toNat := by
    rw [hc, List.getElem?_map, hm, Option.map_some]
  rw [List.getElem?_map] at hi
  exact Option.map_eq_some_iff.mp hi

end Counts

theorem trade?_eq_none {p : Plan} {waiting : List Plan} (h : trade? p waiting = .ok none) :
    ∀ x ∈ waiting, p.tuples ≤ x.tuples := by
  obtain ⟨bound, ns, hp, hc, hn⟩ := trade?_counts h
  refine le_of_counts hc fun n hm => ?_
  rw [hp, ← UInt64.le_iff_toNat_le]
  cases hl : leastBelow bound ns with
  | none => exact leastBelow_eq_none hl n hm
  | some i =>
      obtain ⟨m, hi, _, _⟩ := leastBelow_eq_some hl
      obtain ⟨q, hq, _⟩ := getElem?_of_counts hc hi
      simp [hl, hq] at hn

theorem trade?_least {p : Plan} {waiting : List Plan} {t : Trade}
    (h : trade? p waiting = .ok (some t)) :
    t.received.tuples < p.tuples ∧ ∀ x ∈ waiting, t.received.tuples ≤ x.tuples := by
  obtain ⟨bound, ns, hp, hc, ho⟩ := trade?_counts h
  obtain ⟨i, hl, ho⟩ := Option.bind_eq_some_iff.mp ho.symm
  obtain ⟨q, hq, rfl⟩ := Option.map_eq_some_iff.mp ho
  obtain ⟨m, hi, hlt, hle⟩ := leastBelow_eq_some hl
  obtain ⟨q', hq', hm⟩ := getElem?_of_counts hc hi
  obtain rfl := Option.some.inj (hq'.symm.trans hq)
  rw [hp, hm]
  exact ⟨UInt64.lt_iff_toNat_lt.mp hlt,
    le_of_counts hc fun n hn => UInt64.le_iff_toNat_le.mp (hle n hn)⟩

theorem least_of_exchange {c : Chain} {p : Plan} {event : Operator → Operator → Event}
    {x : Plan × Chain} {s t : Progress} (h : Returns (c.exchange p event) s x t) :
    (∀ w ∈ x.2.waiting, x.1.tuples ≤ w.tuples) ∧
      (x.1 = p ∨ x.1 ∈ c.waiting ∧ x.1.tuples < p.tuples) := by
  have hperm := (returns_exchange h).1.perm
  obtain ⟨o, u, lifted, h⟩ := returns_bind.mp h
  obtain ⟨traded, rfl⟩ := returns_lift.mp lifted
  cases o with
  | none =>
      obtain ⟨rfl, rfl⟩ := returns_pure.mp h
      exact ⟨trade?_eq_none traded, .inl rfl⟩
  | some trade =>
      obtain ⟨k, found, _⟩ := trade?_eq_ok traded
      obtain ⟨hlt, hle⟩ := trade?_least traded
      obtain ⟨_, _, _, h⟩ := returns_bind.mp h
      obtain ⟨_, _, _, h⟩ := returns_bind.mp h
      obtain ⟨_, _, _, h⟩ := returns_bind.mp h
      obtain ⟨rfl, rfl⟩ := returns_pure.mp h
      refine ⟨fun w hw => ?_, .inr ⟨List.mem_of_getElem? found, hlt⟩⟩
      obtain rfl | hw := List.mem_cons.mp (hperm.mem_iff.mp (List.mem_cons_of_mem _ hw))
      · exact Nat.le_of_lt hlt
      · exact hle w hw

theorem least_of_placeRight {left own : Plan} {c : Chain} {x : Plan × Chain} {s t : Progress}
    (h : Returns (placeRight left own c) s x t) :
    ∃ right i e, x.1 = ⟨.product, [left, right], i, e⟩ ∧ Exchanged c own right x.2 ∧
      (∀ w ∈ x.2.waiting, right.tuples ≤ w.tuples) ∧
      (right = own ∨ right ∈ c.waiting ∧ right.tuples < own.tuples) := by
  obtain ⟨⟨right, c'⟩, u, exchanged, h⟩ := returns_bind.mp h
  obtain ⟨p, v, made, h⟩ := returns_bind.mp h
  obtain ⟨rfl, rfl⟩ := returns_pure.mp h
  obtain ⟨⟨_⟩, rfl⟩ := returns_addNode.mp made
  exact ⟨right, _, _, rfl, (returns_exchange exchanged).1, least_of_exchange exchanged⟩

/-- The operands of a chain and what still waits: the right ones rise up to what waits, and only
the lowest of them may be smaller than the left one, if it has been there before. -/
structure Rising (first y y₁ : Plan) (ys waiting : List Plan) : Prop where
  rising : (y₁ :: ys).Pairwise fun a b => a.tuples ≤ b.tuples
  ahead : ∀ a ∈ y₁ :: ys, ∀ w ∈ waiting, a.tuples ≤ w.tuples
  lowest : ∀ z ∈ ys ++ waiting, y.tuples ≤ z.tuples
  stays : y₁.tuples < y.tuples → y₁ = first

namespace Rising

variable {first y y₁ right : Plan} {ys ws ws' : List Plan}

theorem deepest (onLeft : ∀ w ∈ ws, y.tuples ≤ w.tuples)
    (onRight : ∀ w ∈ ws', right.tuples ≤ w.tuples)
    (traded : right = first ∨ right ∈ ws ∧ right.tuples < first.tuples)
    (hp : (right :: ws').Perm (first :: ws)) : Rising first y right [] ws' where
  rising := List.pairwise_singleton _ _
  ahead := List.forall_mem_singleton.mpr onRight
  lowest z hz := by
    -- The right input given away is larger than one that is no smaller than the left.
    obtain rfl | ⟨hm, hlt⟩ := traded
    · exact onLeft z (hp.cons_inv.mem_iff.mp hz)
    · obtain rfl | hz := List.mem_cons.mp (hp.mem_iff.mp (List.mem_cons_of_mem _ hz))
      · exact (onLeft right hm).trans (Nat.le_of_lt hlt)
      · exact onLeft z hz
  stays hlt := traded.resolve_right fun ht => Nat.not_lt.mpr (onLeft right ht.1) hlt

theorem placed (h : Rising first y y₁ ys ws) (onRight : ∀ w ∈ ws', right.tuples ≤ w.tuples)
    (hp : (right :: ws').Perm ws) : Rising first y y₁ (ys ++ [right]) ws' where
  rising := by
    rw [← List.cons_append, List.pairwise_append]
    refine ⟨h.rising, List.pairwise_singleton _ _, fun a ha b hb => ?_⟩
    rw [List.mem_singleton.mp hb]
    exact h.ahead a ha right (hp.mem_iff.mp List.mem_cons_self)
  ahead a ha w hw := by
    rw [← List.cons_append, List.mem_append, List.mem_singleton] at ha
    obtain ha | rfl := ha
    · exact h.ahead a ha w (hp.mem_iff.mp (List.mem_cons_of_mem _ hw))
    · exact onRight w hw
  lowest z hz := by
    rw [List.append_assoc, List.singleton_append] at hz
    exact h.lowest z ((hp.append_left ys).mem_iff.mp hz)
  stays := h.stays

end Rising

/-- A chain before and after the walk, with what waits at its top: the same operands but for
their numbers, in rising order. -/
inductive Arranged (p : Plan) (ws : List Plan) (q : Plan) (ws' : List Plan) : Prop
  | mk {x x₁ y y₁ : Plan} {xs ys : List Plan} (before : p.operands = x :: x₁ :: xs)
      (after : q.operands = y :: y₁ :: ys) (rising : Rising x₁ y y₁ ys ws')
      (perm : ((q.operands ++ ws').map unnumbered).Perm ((p.operands ++ ws).map unnumbered))

namespace Arranged

variable {p q p' q' l l' r right : Plan} {ws ws' : List Plan} {i j : NodeId}
  {e e' : Option Statistics}

theorem congr (h : Arranged p ws q ws') (hp : p'.spine = p.spine) (hq : q'.spine = q.spine) :
    Arranged p' ws q' ws' := by
  obtain ⟨before, after, rising, perm⟩ := h
  rw [← operands_congr hp] at before perm
  rw [← operands_congr hq] at after perm
  exact .mk before after rising perm

theorem deepest {left : Plan} (hl : l.spine = []) (hleft : left.spine = [])
    (hl' : l'.unnumbered = l.unnumbered)
    (hp : (left :: right :: ws').Perm (l' :: (ws ++ [r]))) (rising : Rising r left right [] ws') :
    Arranged ⟨.product, [l, r], i, e⟩ ws ⟨.product, [left, right], j, e'⟩ ws' := by
  refine .mk (operands_deepest hl) (operands_deepest hleft) rising ?_
  rw [operands_deepest hl, operands_deepest hleft]
  simpa [hl'] using (hp.trans perm_of_operands).map unnumbered

theorem product {ws₁ : List Plan} (h : Arranged l (ws ++ [r]) l' ws₁) (hl : l.spine ≠ [])
    (hp : (right :: ws').Perm ws₁) (least : ∀ w ∈ ws', right.tuples ≤ w.tuples) :
    Arranged ⟨.product, [l, r], i, e⟩ ws ⟨.product, [l', right], j, e'⟩ ws' := by
  obtain @⟨x, x₁, y, y₁, xs, ys, before, after, rising, perm⟩ := h
  have hl' : l'.spine ≠ [] := fun hn => by simp [operands, hn] at after
  have hbefore : (Plan.mk .product [l, r] i e).operands = x :: x₁ :: (xs ++ [r]) := by
    rw [operands_product hl, before, List.cons_append, List.cons_append]
  have hafter : (Plan.mk .product [l', right] j e').operands = y :: y₁ :: (ys ++ [right]) := by
    rw [operands_product hl', after, List.cons_append, List.cons_append]
  refine .mk hbefore hafter (rising.placed least hp) ?_
  rw [operands_product hl, operands_product hl', List.append_assoc, List.append_assoc]
  have hbelow := (hp.append_left l'.operands).map unnumbered
  have habove := (List.perm_append_singleton r ws).append_left l.operands |>.map unnumbered
  exact hbelow.trans (perm.trans habove)

end Arranged

/-- Nothing but numbers changes where no product is. -/
theorem Reordered.skeleton_eq {n m : Nat} {p q : Plan} {c c' : Chain} (h : Reordered n p c m q c')
    (hc : Operator.product ∉ p.chain) (hm : c.moved = []) :
    q.skeleton = p.skeleton ∧ q.chain = p.chain := by
  induction h with
  | leaf _ => exact ⟨rfl, rfl⟩
  | kept _ added ih | project _ added ih =>
      cases added
      rw [Plan.chain, List.mem_cons, not_or] at hc
      obtain ⟨hs, hq⟩ := ih hc.2 hm
      exact ⟨by rw [skeleton_unary, skeleton_unary, hs], by rw [Plan.chain, Plan.chain, hq]⟩
  | detached input moved _ =>
      rw [Plan.chain, List.mem_cons, not_or] at hc
      obtain ⟨a, _, ha⟩ := moved
      rw [(input.still hc.2 hm).1, hm] at ha
      cases ha
  | product _ _ _ _ _ _ => exact absurd List.mem_cons_self hc

theorem Reordered.unnumbered_eq {n m : Nat} {p q : Plan} {c c' : Chain} {d : Statistics}
    (h : Reordered n p c m q c') (hp : p.Estimated d) (hk : Known c.waiting)
    (hs : p.spine = []) (hm : c.moved = []) : c' = c ∧ q.unnumbered = p.unnumbered := by
  have hc : Operator.product ∉ p.chain := fun hc => product_mem_chain.mp hc hs
  obtain ⟨⟨_, hq⟩, _⟩ := known_cons.mp (h.known (known_cons.mpr ⟨⟨d, hp⟩, hk⟩))
  exact ⟨(h.still hc hm).1, hp.unnumbered_eq hq (h.skeleton_eq hc hm).1⟩

section Place

variable {l l' r own : Plan} {c : Chain} {ws rest : List Plan} {x : Plan × Chain} {s t : Progress}
  {i : NodeId} {e : Option Statistics}

theorem arranged_deepest (h : Returns (place l' r c) s x t) (last : c.waiting = ws ++ [r])
    (hd : c.deepestAhead = true) (hl : l.spine = []) (hl' : l'.unnumbered = l.unnumbered)
    (free : ∀ a ∈ l' :: ws, a.ProductFree) :
    Arranged ⟨.product, [l, r], i, e⟩ ws x.1 x.2.waiting ∧ x.2.deepestAhead = false := by
  rw [place_eq last, if_pos hd] at h
  obtain ⟨⟨left, c₁⟩, v, exchanged, h⟩ := returns_bind.mp h
  have onLeft := (returns_exchange exchanged).1
  obtain ⟨right, j, e', hx, onRight, least, traded⟩ := least_of_placeRight h
  have hleft := free left (onLeft.perm.mem_iff.mp List.mem_cons_self)
  have hp := perm_of_placed last onLeft onRight
  rw [last] at hp
  rw [hx, onRight.deepestAhead_eq, onLeft.deepestAhead_eq]
  exact ⟨.deepest hl hleft.spine_eq hl' hp
    (.deepest (least_of_exchange exchanged).1 least traded onRight.perm), rfl⟩

theorem arranged_product (h : Returns (place l' r c) s x t) (last : c.waiting = rest ++ [own])
    (hd : c.deepestAhead = false) (hl : l.spine ≠ [])
    (arranged : Arranged l (ws ++ [r]) l' c.waiting) :
    Arranged ⟨.product, [l, r], i, e⟩ ws x.1 x.2.waiting ∧ x.2.deepestAhead = false := by
  rw [place_eq last, hd, if_neg Bool.false_ne_true] at h
  obtain ⟨right, j, e', hx, onRight, least, _⟩ := least_of_placeRight h
  rw [hx, onRight.deepestAhead_eq]
  refine ⟨arranged.product hl (onRight.perm.trans ?_) least, rfl⟩
  rw [last]
  exact (List.perm_append_singleton own rest).symm

end Place

/-- A walk that meets a product leaves the chain in order, and takes note of it. -/
theorem arranged_of_returns {p : Plan} {c : Chain} {x : Plan × Chain} {s t : Progress}
    {d : Statistics} (h : Returns (reorder p c) s x t) (hp : p.Estimated d) (hk : Known c.waiting)
    (hn : p.spine ≠ []) (hf : ∀ a ∈ p.operands ++ c.waiting, a.ProductFree) (hm : c.moved = [])
    (hd : c.deepestAhead = true) :
    Arranged p c.waiting x.1 x.2.waiting ∧ x.2.deepestAhead = false := by
  fun_induction reorder p c generalizing s t x d with
  | case1 | case2 | case4 | case5 => exact (returns_throw.mp h).elim
  | case3 l r qs i e c ih =>
      obtain ⟨rfl, ⟨_, hl⟩, hr⟩ := hp.binary
      obtain ⟨⟨l', c'⟩, u, reordered, placed⟩ := returns_bind.mp h
      have walk := reordered_of_returns reordered hl
      have hkr : Known (c.waiting ++ [r]) :=
        List.forall_mem_append.mpr ⟨hk, List.forall_mem_singleton.mpr hr⟩
      by_cases hs : l.spine = []
      -- The walk turns here. Below, it has done nothing but renumber.
      · obtain ⟨rfl, hl'⟩ := walk.unnumbered_eq hl hkr hs hm
        rw [operands_deepest hs] at hf
        have free := walk.every fun a ha => hf a (by simp at ha ⊢; tauto)
        refine arranged_deepest placed rfl hd hs hl' fun a ha => free a ?_
        simp at ha ⊢
        tauto
      · rw [operands_product hs] at hf
        obtain ⟨arranged, ahead⟩ := ih reordered hl hkr hs
          (fun a ha => hf a (by simp at ha ⊢; tauto)) hm hd
        obtain ⟨rest, own, last⟩ : ∃ rest own, c'.waiting = rest ++ [own] := by
          refine (List.eq_nil_or_concat' c'.waiting).resolve_left fun hn => ?_
          simpa [hn] using walk.length_eq
        exact arranged_product placed last ahead hs arranged
  | case6 predicate q qs i e c ih =>
      cases hp with
      | select _ hq _ =>
          obtain ⟨⟨q', c'⟩, u, reordered, h⟩ := returns_bind.mp h
          obtain ⟨arranged, ahead⟩ := ih reordered hq hk hn hf hm hd
          dsimp only at h
          split at h
          · obtain ⟨_, v, reported, h⟩ := returns_bind.mp h
            obtain ⟨rfl, rfl⟩ := returns_pure.mp h
            exact ⟨arranged.congr rfl rfl, ahead⟩
          · obtain ⟨p, v, made, h⟩ := returns_bind.mp h
            obtain ⟨rfl, rfl⟩ := returns_pure.mp h
            obtain ⟨⟨_⟩, rfl⟩ := returns_addNode.mp made
            exact ⟨arranged.congr rfl rfl, ahead⟩
  | case7 cs q qs i e c ih =>
      cases hp with
      | project _ hq _ =>
          obtain ⟨⟨q', c'⟩, u, reordered, h⟩ := returns_bind.mp h
          obtain ⟨arranged, ahead⟩ := ih reordered hq hk hn hf hm hd
          obtain ⟨p, v, made, h⟩ := returns_bind.mp h
          obtain ⟨rfl, rfl⟩ := returns_pure.mp h
          obtain ⟨⟨_⟩, rfl⟩ := returns_addNode.mp made
          exact ⟨arranged.congr rfl rfl, ahead⟩
  | case8 | case9 => exact absurd rfl hn

theorem not_mem_of_unselected {predicate : Predicate} {ops : List Operator}
    (h : Unselected (.select predicate :: ops)) : .product ∉ ops :=
  fun hm => by cases (List.pairwise_cons.mp h).1 _ hm rfl

theorem unselected_of_productFree {p : Plan} (h : p.ProductFree) : Unselected p.chain := by
  refine List.pairwise_of_forall_mem_list fun a _ b hb hbp => ?_
  exact absurd h.spine_eq (product_mem_chain.mp (hbp ▸ hb))

/-- Where no selection stands above a product, none does after the walk, and none is detached. -/
theorem Reordered.unselected {n m : Nat} {p q : Plan} {c c' : Chain} (h : Reordered n p c m q c')
    (hm : c.moved = []) (hf : ∀ a ∈ p.operands ++ c.waiting, Unselected a.chain)
    (hu : Unselected p.chain) :
    (∀ a ∈ q :: c'.waiting, Unselected a.chain) ∧ c'.detached = c.detached := by
  induction h with
  | leaf _ => exact ⟨List.forall_mem_cons.mpr ⟨hu, (List.forall_mem_append.mp hf).2⟩, rfl⟩
  | kept input added _ =>
      have hc := not_mem_of_unselected hu
      cases added
      rw [(input.still hc hm).1]
      refine ⟨List.forall_mem_cons.mpr ⟨?_, (List.forall_mem_append.mp hf).2⟩, rfl⟩
      rw [Plan.chain, (input.skeleton_eq hc hm).2]
      exact hu
  | detached input moved _ =>
      obtain ⟨a, _, ha⟩ := moved
      rw [(input.still (not_mem_of_unselected hu) hm).1, hm] at ha
      cases ha
  | project _ added ih =>
      cases added
      obtain ⟨hq, hdet⟩ := ih hm hf hu.of_cons
      rw [List.forall_mem_cons] at hq ⊢
      exact ⟨⟨.cons (fun _ _ _ => rfl) hq.1, hq.2⟩, hdet⟩
  | @product _ l r _ _ _ _ _ _ _ _ c _ _ _ input last onLeft onRight added ih =>
      cases added
      obtain ⟨hops, hw⟩ := List.forall_mem_append.mp hf
      have hbelow : ∀ a ∈ l.operands ++ (c.waiting ++ [r]), Unselected a.chain := by
        have hlr := List.forall_mem_append.mp fun a ha => hops a (operands_subset ha)
        exact List.forall_mem_append.mpr ⟨hlr.1, List.forall_mem_append.mpr ⟨hw, hlr.2⟩⟩
      obtain ⟨hl, hdet⟩ := ih hm hbelow hu.of_cons
      have hplaced := fun a ha => hl a ((perm_of_placed last onLeft onRight).mem_iff.mp ha)
      rw [List.forall_mem_cons, List.forall_mem_cons] at hplaced
      rw [onRight.detached_eq, onLeft.detached_eq]
      exact ⟨List.forall_mem_cons.mpr ⟨.cons (fun _ _ _ => rfl) hplaced.1, hplaced.2.2⟩, hdet⟩

theorem spine_stacked {n m : Nat} {p q : Plan} {predicates : List Predicate}
    (h : Stacked n p predicates m q) : q.spine = p.spine := by
  induction h with
  | nil => rfl
  | cons added _ ih =>
      cases added
      exact ih

theorem Restored.spine_eq {n m : Nat} {p q : Plan} {predicates : List Predicate}
    (h : Restored n p predicates m q) : q.spine = p.spine := by
  cases h with
  | above stacked _ => exact spine_stacked stacked
  | below stacked added =>
      cases added
      rw [spine_project, spine_project, spine_stacked stacked]

theorem Restored.chain_eq {n m : Nat} {p q : Plan} (h : Restored n p [] m q) :
    q.chain = p.chain := by
  cases h with
  | above stacked _ =>
      cases stacked
      rfl
  | below stacked added =>
      cases added
      cases stacked
      rfl

/-- The first operands are the smallest, in whatever order the lowest two are. -/
theorem Rising.take_perm {first y y₁ : Plan} {ys : List Plan} (h : Rising first y y₁ ys [])
    (k : Nat) :
    (((y :: y₁ :: ys).map Plan.tuples).take (k + 2)).Perm
      ((((y :: y₁ :: ys).map Plan.tuples).insertionSort (· ≤ ·)).take (k + 2)) := by
  have hrise : ((y₁ :: ys).map Plan.tuples).Pairwise (· ≤ ·) := List.pairwise_map.mpr h.rising
  have hlow : ∀ n ∈ ys.map Plan.tuples, y.tuples ≤ n :=
    List.forall_mem_map.mpr fun z hz => h.lowest z (List.mem_append_left _ hz)
  simp only [List.map_cons] at hrise ⊢
  obtain hle | hle := Nat.le_total y.tuples y₁.tuples
  · have hsorted : (y.tuples :: y₁.tuples :: ys.map Plan.tuples).Pairwise (· ≤ ·) :=
      .cons (List.forall_mem_cons.mpr ⟨hle, hlow⟩) hrise
    rw [hsorted.insertionSort_eq]
  · have hsorted : (y₁.tuples :: y.tuples :: ys.map Plan.tuples).Pairwise (· ≤ ·) :=
      .cons (List.forall_mem_cons.mpr ⟨hle, (List.pairwise_cons.mp hrise).1⟩)
        (.cons hlow hrise.of_cons)
    rw [List.Perm.eq_of_pairwise' (List.pairwise_insertionSort _ _) hsorted
      ((List.perm_insertionSort _ _).trans (.swap _ _ _))]
    exact .swap _ _ _

section Run

variable {p q : Plan} {s t : Progress} {d : Statistics}

theorem arranged_of_run (h : Returns (run p) s q t) (hp : p.Estimated d) (hn : p.spine ≠ [])
    (hf : ∀ a ∈ p.operands, a.ProductFree) : Arranged p [] q [] := by
  obtain ⟨⟨r, c⟩, u, reordered, h⟩ := returns_bind.mp h
  have walk := reordered_of_returns reordered hp
  have hw : c.waiting = [] := List.eq_nil_of_length_eq_zero walk.length_eq
  obtain ⟨_, hr⟩ := (walked_of_returns reordered hp).known hp
  have hfree : ∀ a ∈ p.operands ++ [], a.ProductFree := by rwa [List.append_nil]
  have arranged := (arranged_of_returns reordered hp (List.forall_mem_nil _) hn hfree rfl rfl).1
  rw [hw] at arranged
  exact arranged.congr rfl (restored_of_returns h hr).spine_eq

theorem unselected_of_run (h : Returns (run p) s q t) (hp : p.Estimated d)
    (hf : ∀ a ∈ p.operands, a.ProductFree) (hu : Unselected p.chain) : Unselected q.chain := by
  obtain ⟨⟨r, c⟩, u, reordered, h⟩ := returns_bind.mp h
  obtain ⟨_, hr⟩ := (walked_of_returns reordered hp).known hp
  have hfree : ∀ a ∈ p.operands ++ [], Unselected a.chain := by
    rw [List.append_nil]
    exact fun a ha => unselected_of_productFree (hf a ha)
  obtain ⟨hall, hdet⟩ := (reordered_of_returns reordered hp).unselected rfl hfree hu
  have restored := restored_of_returns h hr
  rw [hdet] at restored
  rw [restored.chain_eq]
  exact hall r List.mem_cons_self

/-- Reordering a chain of products keeps its operands and sorts them. The right ones rise from the
bottom up, and the left one is at most as large as all of them but the lowest, which may be smaller
only where it has been from the start. So the first of them are always the smallest, and without
selections in between no other order of the operands makes any of the products smaller. -/
theorem run_sorted (hp : p.Consistent) (hd : p.DistinctColumns) (hu : Unbroken p.chain.tail)
    (hn : p.spine ≠ []) (hf : ∀ a ∈ p.operands, a.ProductFree) (s : Progress) :
    ∃ q t x x₁ xs y y₁ ys, Returns (run p) s q t ∧ q.Consistent ∧
      p.operands = x :: x₁ :: xs ∧ q.operands = y :: y₁ :: ys ∧
      (q.operands.map unnumbered).Perm (p.operands.map unnumbered) ∧
      (y₁ :: ys).Pairwise (fun a b => a.tuples ≤ b.tuples) ∧
      (∀ z ∈ ys, y.tuples ≤ z.tuples) ∧ (y₁.tuples < y.tuples → y₁ = x₁) ∧
      (∀ k, 1 ≤ k → ((q.operands.map Plan.tuples).take (k + 1)).Perm
        (((p.operands.map Plan.tuples).insertionSort (· ≤ ·)).take (k + 1))) ∧
      (Unselected p.chain → ∀ r : Plan, r.Consistent → Unselected r.chain →
        (r.operands.map unnumbered).Perm (p.operands.map unnumbered) →
        List.Forall₂ (fun a b => a.tuples ≤ b.tuples) q.spine r.spine) := by
  obtain ⟨d, hp⟩ := hp.estimated
  obtain ⟨q, t, h⟩ := succeeds_run hp hu hd s
  obtain ⟨_, hq⟩ := (ran_of_returns h hp).known hp
  obtain @⟨x, x₁, y, y₁, xs, ys, before, after, rising, perm⟩ := arranged_of_run h hp hn hf
  rw [List.append_nil, List.append_nil] at perm
  have hsizes {as bs : List Plan} (hab : (as.map unnumbered).Perm (bs.map unnumbered)) :
      (as.map Plan.tuples).Perm (bs.map Plan.tuples) := by
    simpa [Function.comp_def, tuples_unnumbered] using hab.map Plan.tuples
  have hleast : ∀ k, 1 ≤ k → ((q.operands.map Plan.tuples).take (k + 1)).Perm
      (((q.operands.map Plan.tuples).insertionSort (· ≤ ·)).take (k + 1)) := by
    intro k hk
    obtain ⟨k, rfl⟩ := Nat.exists_eq_add_of_le' hk
    rw [after]
    exact rising.take_perm k
  refine ⟨q, t, x, x₁, xs, y, y₁, ys, h, hq.consistent, before, after, perm, rising.rising,
    fun z hz => rising.lowest z (List.mem_append_left _ hz), rising.stays, fun k hk => ?_,
    fun hup r hr hur hperm => ?_⟩
  · rw [← insertionSort_congr (hsizes perm)]
    exact hleast k hk
  · obtain ⟨_, hr⟩ := hr.estimated
    exact hq.spine_least hr (unselected_of_run h hp hf hup) hur
      (hsizes (hperm.trans perm.symm)) hleast

end Run

/-- A selection over the largest of three relations at the bottom, the smallest to its right. -/
def steep : Plan :=
  ⟨.project [⟨"x"⟩, ⟨"z"⟩], [⟨.product, [⟨.product,
    [⟨.select (.equalsValue ⟨"x"⟩ "1"),
      [⟨.scan ⟨"r", ⟨16, [⟨⟨"x"⟩, 2⟩]⟩⟩, [], 1, some ⟨16, [⟨⟨"x"⟩, 2⟩]⟩⟩],
      2, some ⟨8, [⟨⟨"x"⟩, 1⟩]⟩⟩,
      ⟨.scan ⟨"s", ⟨3, [⟨⟨"y"⟩, 3⟩]⟩⟩, [], 3, some ⟨3, [⟨⟨"y"⟩, 3⟩]⟩⟩],
    4, some ⟨24, [⟨⟨"x"⟩, 1⟩, ⟨⟨"y"⟩, 3⟩]⟩⟩,
    ⟨.scan ⟨"t", ⟨5, [⟨⟨"z"⟩, 5⟩]⟩⟩, [], 5, some ⟨5, [⟨⟨"z"⟩, 5⟩]⟩⟩],
    6, some ⟨120, [⟨⟨"x"⟩, 1⟩, ⟨⟨"y"⟩, 3⟩, ⟨⟨"z"⟩, 5⟩]⟩⟩],
  7, some ⟨120, [⟨⟨"x"⟩, 1⟩, ⟨⟨"z"⟩, 5⟩]⟩⟩

theorem consistent_steep : steep.Consistent := by
  have hp : steep.Estimated ⟨120, [⟨⟨"x"⟩, 1⟩, ⟨⟨"z"⟩, 5⟩]⟩ :=
    .project 7 (.product 6 (.product 4 (.select 2 (.scan _ 1) rfl) (.scan _ 3)) (.scan _ 5)) rfl
  exact hp.consistent

theorem run_sorted_steep :
    ∃ q t y y₁ ys, Returns (run steep) .start q t ∧ q.operands = y :: y₁ :: ys ∧
      (y₁ :: ys).Pairwise (fun a b => a.tuples ≤ b.tuples) ∧
      ((q.operands.map Plan.tuples).take 2).Perm [3, 5] ∧
      List.Forall₂ (fun a b => a.tuples ≤ b.tuples) q.spine steep.spine := by
  obtain ⟨q, t, x, x₁, xs, y, y₁, ys, h, _, _, after, _, rising, _, _, least, lowest⟩ :=
    run_sorted consistent_steep (by decide) (by decide) (by decide) (by decide) .start
  have hsort : ((steep.operands.map Plan.tuples).insertionSort (· ≤ ·)).take 2 = [3, 5] := by
    decide
  exact ⟨q, t, y, y₁, ys, h, after, rising, hsort ▸ least 1 (Nat.le_refl 1),
    lowest (by decide) steep consistent_steep (by decide) (.refl _)⟩

end QueryPlan.ReorderProducts
