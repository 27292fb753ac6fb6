import QueryPlan.Proofs.Conserved
import Mathlib.Data.List.Forall2

/-!
Walks along chains of products. The plan at hand and the right inputs that wait are
one list; a trade permutes it, and making a product joins two of its members. What
a permutation cannot change is therefore kept on the whole way: the relations
scanned, the predicates counting those detached, and the numbers.
-/

namespace QueryPlan.ReorderProducts

open Planner Plan

inductive Exchanged (c : Chain) (p : Plan) : Plan → Chain → Prop
  | same : Exchanged c p p c
  | traded {q : Plan} {k : Nat} {s t : Statistics} (found : c.waiting[k]? = some q)
      (received : q.output = .ok s) (given : p.output = .ok t) :
      Exchanged c p q
        { c with waiting := c.waiting.set k p, moved := c.moved ++ s.columns ++ t.columns }

/-- The plan below with its chain before and after, and the numbers given out. -/
inductive Reordered : Nat → Plan → Chain → Nat → Plan → Chain → Prop
  | leaf {n : Nat} {p : Plan} {c : Chain} (bare : p.operator.columns? = none) :
      Reordered n p c n p c
  | kept {n m : Nat} {predicate : Predicate} {q q' p : Plan} {i : NodeId}
      {e : Option Statistics} {c c' : Chain} (input : Reordered n q c m q' c')
      (added : Added m (.select predicate) [q'] p) :
      Reordered n ⟨.select predicate, [q], i, e⟩ c (m + 1) p c'
  | detached {n m : Nat} {predicate : Predicate} {q q' : Plan} {i : NodeId}
      {e : Option Statistics} {c c' : Chain} (input : Reordered n q c m q' c')
      (moved : ∃ a ∈ predicate.columns, a ∈ c'.moved) :
      Reordered n ⟨.select predicate, [q], i, e⟩ c m q'
        { c' with detached := c'.detached ++ [predicate] }
  | project {n m : Nat} {cs : List Column} {q q' p : Plan} {i : NodeId}
      {e : Option Statistics} {c c' : Chain} (input : Reordered n q c m q' c')
      (added : Added m (.project cs) [q'] p) :
      Reordered n ⟨.project cs, [q], i, e⟩ c (m + 1) p c'
  | product {n m : Nat} {l r l' own left right p : Plan} {rest : List Plan} {i : NodeId}
      {e : Option Statistics} {c c' c₁ c₂ : Chain}
      (input : Reordered n l { c with waiting := c.waiting ++ [r] } m l' c')
      (last : c'.waiting = rest ++ [own])
      (onLeft : Exchanged { c' with waiting := rest, deepestAhead := false } l' left c₁)
      (onRight : Exchanged c₁ own right c₂) (added : Added m .product [left, right] p) :
      Reordered n ⟨.product, [l, r], i, e⟩ c (m + 1) p c₂

namespace Exchanged

variable {c c' : Chain} {p q : Plan}

theorem perm (h : Exchanged c p q c') : (q :: c'.waiting).Perm (p :: c.waiting) := by
  cases h with
  | same => exact .refl _
  | @traded _ k _ _ found _ _ =>
      obtain ⟨hk, rfl⟩ := List.getElem?_eq_some_iff.mp found
      obtain ⟨a, b, hw, _, hs⟩ : ∃ a b, c.waiting = a ++ c.waiting[k] :: b ∧ a.length = k ∧
          c.waiting.set k p = a ++ p :: b := List.exists_of_set hk
      have hback := (List.Perm.of_eq hw).trans List.perm_middle
      simp only [hs]
      exact (List.perm_middle.cons _).trans ((List.Perm.swap _ _ _).trans (hback.symm.cons _))

theorem length_eq (h : Exchanged c p q c') : c'.waiting.length = c.waiting.length := by
  simpa using h.perm.length_eq

theorem detached_eq (h : Exchanged c p q c') : c'.detached = c.detached := by
  cases h <;> rfl

theorem moved_subset (h : Exchanged c p q c') : c.moved ⊆ c'.moved := by
  cases h with
  | same => exact List.Subset.refl _
  | traded _ _ _ => exact fun d hd => by simp [hd]

end Exchanged

theorem trade?_eq_ok {p : Plan} {waiting : List Plan} {trade : Trade}
    (h : trade? p waiting = .ok (some trade)) :
    ∃ k, waiting[k]? = some trade.received ∧ trade.waiting = waiting.set k p := by
  simp only [trade?, bind_eq_ok, pure_eq_ok, eq_comm (a := some trade), Option.bind_eq_some_iff,
    Option.map_eq_some_iff] at h
  obtain ⟨_, _, _, _, k, _, q, found, rfl⟩ := h
  exact ⟨k, found, rfl⟩

theorem mark_eq_ok {c c' : Chain} {p : Plan} :
    c.mark p = .ok c' ↔
      ∃ s, p.output = .ok s ∧ c' = { c with moved := c.moved ++ s.columns } := by
  simp only [Chain.mark, bind_eq_ok, pure_eq_ok]

theorem returns_exchange {c : Chain} {p : Plan} {event : Operator → Operator → Event}
    {x : Plan × Chain} {s t : Progress} (h : Returns (c.exchange p event) s x t) :
    Exchanged c p x.1 x.2 ∧ t.issued = s.issued := by
  obtain ⟨found, u, lifted, h⟩ := returns_bind.mp h
  obtain ⟨traded, rfl⟩ := returns_lift.mp lifted
  cases found with
  | none =>
      obtain ⟨rfl, rfl⟩ := returns_pure.mp h
      exact ⟨.same, rfl⟩
  | some trade =>
      obtain ⟨k, found, hw⟩ := trade?_eq_ok traded
      obtain ⟨_, v, reported, h⟩ := returns_bind.mp h
      obtain ⟨c₁, w, marked, h⟩ := returns_bind.mp h
      obtain ⟨c₂, y, marked', h⟩ := returns_bind.mp h
      obtain ⟨rfl, rfl⟩ := returns_pure.mp h
      obtain ⟨hm, rfl⟩ := returns_lift.mp marked
      obtain ⟨hm', rfl⟩ := returns_lift.mp marked'
      obtain ⟨a, received, rfl⟩ := mark_eq_ok.mp hm
      obtain ⟨b, given, rfl⟩ := mark_eq_ok.mp hm'
      rw [returns_report.mp reported, hw]
      exact ⟨.traded found received given, rfl⟩

/-- The second half of a placement: the right input is traded, and the product made. -/
def placeRight (left own : Plan) (c : Chain) : Planner (Plan × Chain) := do
  let (right, outer) ← c.exchange own .swappedRight
  return (← addNode .product [left, right], outer)

theorem place_eq {l r own : Plan} {c : Chain} {rest : List Plan}
    (last : c.waiting = rest ++ [own]) :
    place l r c =
      if c.deepestAhead then
        Chain.exchange { c with waiting := rest, deepestAhead := false } l .swappedLeft >>=
          fun x => placeRight x.1 own x.2
      else placeRight l own { c with waiting := rest, deepestAhead := false } := by
  simp only [place, last, List.dropLast_concat, List.getLastD_concat]
  split <;> rfl

theorem returns_placeRight {left own : Plan} {c : Chain} {x : Plan × Chain} {s t : Progress}
    (h : Returns (placeRight left own c) s x t) :
    ∃ right, Exchanged c own right x.2 ∧ Added s.issued .product [left, right] x.1 ∧
      t.issued = s.issued + 1 := by
  obtain ⟨⟨right, outer⟩, u, hr, h⟩ := returns_bind.mp h
  obtain ⟨p, v, made, h⟩ := returns_bind.mp h
  obtain ⟨rfl, rfl⟩ := returns_pure.mp h
  obtain ⟨added, rfl⟩ := returns_addNode.mp made
  obtain ⟨onRight, hu⟩ := returns_exchange hr
  rw [hu] at added
  exact ⟨right, onRight, added, by rw [hu]⟩

theorem returns_place {l r own : Plan} {c : Chain} {rest : List Plan} {x : Plan × Chain}
    {s t : Progress} (last : c.waiting = rest ++ [own]) (h : Returns (place l r c) s x t) :
    ∃ left right c₁, Exchanged { c with waiting := rest, deepestAhead := false } l left c₁ ∧
      Exchanged c₁ own right x.2 ∧ Added s.issued .product [left, right] x.1 ∧
      t.issued = s.issued + 1 := by
  rw [place_eq last] at h
  split at h
  · obtain ⟨⟨left, c₁⟩, u, hl, h⟩ := returns_bind.mp h
    obtain ⟨onLeft, hu⟩ := returns_exchange hl
    obtain ⟨right, onRight, added, issued⟩ := returns_placeRight h
    rw [hu] at added issued
    exact ⟨left, right, c₁, onLeft, onRight, added, issued⟩
  · obtain ⟨right, onRight, added, issued⟩ := returns_placeRight h
    exact ⟨l, right, _, .same, onRight, added, issued⟩

namespace Reordered

variable {n m : Nat} {p q : Plan} {c c' : Chain}

theorem le (h : Reordered n p c m q c') : n ≤ m := by
  induction h with
  | leaf => exact Nat.le_refl _
  | detached _ _ ih => exact ih
  | kept _ _ ih | project _ _ ih | product _ _ _ _ _ ih => omega

theorem length_eq (h : Reordered n p c m q c') : c'.waiting.length = c.waiting.length := by
  induction h with
  | leaf => rfl
  | kept _ _ ih | detached _ _ ih | project _ _ ih => exact ih
  | product _ last onLeft onRight _ ih =>
      have hl := onLeft.length_eq
      have hr := onRight.length_eq
      simp only [last, List.length_append, List.length_singleton] at ih hl hr ⊢
      omega

end Reordered

theorem reordered_of_returns {p : Plan} {c : Chain} {x : Plan × Chain} {s t : Progress}
    {e : Statistics} (h : Returns (reorder p c) s x t) (hp : p.Estimated e) :
    Reordered s.issued p c t.issued x.1 x.2 := by
  fun_induction reorder p c generalizing s t x e with
  | case1 | case2 | case4 | case5 => exact (returns_throw.mp h).elim
  | case3 l r qs i _ c ih =>
      obtain ⟨rfl, ⟨_, hl⟩, _⟩ := hp.binary
      obtain ⟨⟨l', c'⟩, u, reordered, h⟩ := returns_bind.mp h
      have input := ih reordered hl
      obtain ⟨rest, own, last⟩ : ∃ rest own, c'.waiting = rest ++ [own] := by
        refine (List.eq_nil_or_concat' c'.waiting).resolve_left fun hn => ?_
        simpa [hn] using input.length_eq
      obtain ⟨left, right, c₁, onLeft, onRight, added, issued⟩ := returns_place last h
      rw [issued]
      exact .product input last onLeft onRight added
  | case6 predicate q qs i _ c ih =>
      cases hp with
      | select _ hq _ =>
          obtain ⟨⟨q', c'⟩, u, reordered, h⟩ := returns_bind.mp h
          have input := ih reordered hq
          dsimp only at h
          split at h
          · rename_i hm
            obtain ⟨a, ha, hm⟩ := List.any_eq_true.mp hm
            obtain ⟨_, v, reported, h⟩ := returns_bind.mp h
            obtain ⟨rfl, rfl⟩ := returns_pure.mp h
            rw [returns_report.mp reported]
            exact .detached input ⟨a, ha, of_decide_eq_true hm⟩
          · obtain ⟨p, v, made, h⟩ := returns_bind.mp h
            obtain ⟨rfl, rfl⟩ := returns_pure.mp h
            obtain ⟨added, rfl⟩ := returns_addNode.mp made
            exact .kept input added
  | case7 cs q qs i _ c ih =>
      cases hp with
      | project _ hq _ =>
          obtain ⟨⟨q', c'⟩, u, reordered, h⟩ := returns_bind.mp h
          have input := ih reordered hq
          obtain ⟨p, v, made, h⟩ := returns_bind.mp h
          obtain ⟨rfl, rfl⟩ := returns_pure.mp h
          obtain ⟨added, rfl⟩ := returns_addNode.mp made
          exact .project input added
  | case8 | case9 =>
      obtain ⟨rfl, rfl⟩ := returns_pure.mp h
      exact .leaf rfl

/-- What the plans of a list have between them. -/
def total {α : Type} (f : Plan → List α) (ps : List Plan) : Multiset α :=
  ps.flatMap f

section Total

variable {α : Type} {f : Plan → List α} {p : Plan} {ps qs : List Plan}

theorem total_nil : total f [] = 0 :=
  rfl

theorem total_cons : total f (p :: ps) = f p + total f ps := by
  simp [total]

theorem total_perm (h : ps.Perm qs) : total f ps = total f qs :=
  Multiset.coe_eq_coe.mpr (h.flatMap_right f)

end Total

/-- Every plan of the list is estimated throughout. -/
def Known (ps : List Plan) : Prop :=
  ∀ p ∈ ps, ∃ s, p.Estimated s

section Known

variable {p l r : Plan} {ps qs : List Plan} {i : NodeId} {e : Option Statistics}

theorem known_cons : Known (p :: ps) ↔ (∃ s, p.Estimated s) ∧ Known ps :=
  List.forall_mem_cons

theorem Known.perm (h : Known ps) (hq : qs.Perm ps) : Known qs :=
  fun q hm => h q (hq.mem_iff.mp hm)

theorem Known.product (h : Known (⟨.product, [l, r], i, e⟩ :: ps)) : Known (l :: r :: ps) := by
  obtain ⟨⟨_, hp⟩, hps⟩ := known_cons.mp h
  exact known_cons.mpr ⟨hp.binary.2.1, known_cons.mpr ⟨hp.binary.2.2, hps⟩⟩

end Known

/-- The right input of a product waits behind the others. -/
theorem perm_of_operands {l r : Plan} {ps : List Plan} :
    (l :: (ps ++ [r])).Perm (l :: r :: ps) :=
  (List.perm_append_singleton r ps).cons l

/-- The inputs of a new product and what waits afterwards are what was at hand before. -/
theorem perm_of_placed {l own left right : Plan} {rest : List Plan} {c c₁ c₂ : Chain}
    (last : c.waiting = rest ++ [own])
    (onLeft : Exchanged { c with waiting := rest, deepestAhead := false } l left c₁)
    (onRight : Exchanged c₁ own right c₂) :
    (left :: right :: c₂.waiting).Perm (l :: c.waiting) := by
  rw [last]
  calc (left :: right :: c₂.waiting).Perm (left :: own :: c₁.waiting) := onRight.perm.cons left
    _ |>.Perm (own :: left :: c₁.waiting) := .swap own left _
    _ |>.Perm (own :: l :: rest) := onLeft.perm.cons own
    _ |>.Perm (l :: own :: rest) := .swap l own rest
    _ |>.Perm (l :: (rest ++ [own])) := (List.perm_append_singleton own rest).symm.cons l

namespace Reordered

variable {n m : Nat} {p q : Plan} {c c' : Chain}

theorem known (h : Reordered n p c m q c') (hp : Known (p :: c.waiting)) :
    Known (q :: c'.waiting) := by
  induction h with
  | leaf => exact hp
  | kept _ added ih =>
      obtain ⟨⟨_, hs⟩, hw⟩ := known_cons.mp hp
      cases hs with
      | select _ hq _ =>
          obtain ⟨⟨_, hq'⟩, hw'⟩ := known_cons.mp (ih (known_cons.mpr ⟨⟨_, hq⟩, hw⟩))
          obtain ⟨u, _, hu⟩ := added.select hq'
          exact known_cons.mpr ⟨⟨u, hu⟩, hw'⟩
  | detached _ _ ih =>
      obtain ⟨⟨_, hs⟩, hw⟩ := known_cons.mp hp
      cases hs with
      | select _ hq _ => exact ih (known_cons.mpr ⟨⟨_, hq⟩, hw⟩)
  | project _ added ih =>
      obtain ⟨⟨_, hs⟩, hw⟩ := known_cons.mp hp
      cases hs with
      | project _ hq _ =>
          obtain ⟨⟨_, hq'⟩, hw'⟩ := known_cons.mp (ih (known_cons.mpr ⟨⟨_, hq⟩, hw⟩))
          obtain ⟨u, _, hu⟩ := added.project hq'
          exact known_cons.mpr ⟨⟨u, hu⟩, hw'⟩
  | product _ last onLeft onRight added ih =>
      have hall := ih (hp.product.perm perm_of_operands)
      obtain ⟨⟨_, hl⟩, hrw⟩ := known_cons.mp (hall.perm (perm_of_placed last onLeft onRight))
      obtain ⟨⟨_, hr⟩, hw'⟩ := known_cons.mp hrw
      exact known_cons.mpr ⟨⟨_, added.product hl hr⟩, hw'⟩

theorem scans (h : Reordered n p c m q c') :
    total Plan.scans (q :: c'.waiting) = total Plan.scans (p :: c.waiting) := by
  induction h with
  | leaf => rfl
  | kept _ added ih | project _ added ih =>
      cases added
      simpa [total_cons, Operator.relation?] using ih
  | detached _ _ ih => simpa [total_cons, Operator.relation?] using ih
  | product _ last onLeft onRight added ih =>
      cases added
      rw [total_perm perm_of_operands, ← total_perm (perm_of_placed last onLeft onRight)] at ih
      simpa [total_cons, Operator.relation?, ← Multiset.coe_add, add_assoc] using ih

/-- A predicate stays on its selection, or is detached. -/
theorem predicates (h : Reordered n p c m q c') :
    total Plan.predicates (q :: c'.waiting) + c'.detached =
      total Plan.predicates (p :: c.waiting) + c.detached := by
  induction h with
  | leaf => rfl
  | kept _ added ih | project _ added ih =>
      cases added
      simpa [total_cons, Operator.predicate?, ← Multiset.cons_coe, Multiset.cons_add] using ih
  | @detached _ predicate q q' _ _ c c' _ _ ih =>
      rw [total_cons, total_cons] at ih
      rw [total_cons, total_cons, predicates_unary, Operator.predicate?, Option.toList_some,
        ← Multiset.coe_add, ← Multiset.coe_add, ← add_assoc, ih]
      ac_rfl
  | product _ last onLeft onRight added ih =>
      cases added
      rw [total_perm perm_of_operands, ← total_perm (perm_of_placed last onLeft onRight)] at ih
      rw [onRight.detached_eq, onLeft.detached_eq]
      simpa [total_cons, Operator.predicate?, ← Multiset.coe_add, add_assoc] using ih

theorem ids_le (h : Reordered n p c m q c') :
    total Plan.ids (q :: c'.waiting) ≤ total Plan.ids (p :: c.waiting) + numbers n m := by
  induction h with
  | leaf => exact Multiset.le_add_right _ _
  | kept input added ih | project input added ih =>
      cases added
      rw [total_cons, total_cons] at ih ⊢
      rw [ids_unary, ids_unary, ← numbers_add input.le (Nat.le_succ _), numbers_succ]
      refine Multiset.le_iff_count.mpr fun a => ?_
      have ha := Multiset.le_iff_count.mp ih a
      simp only [← Multiset.cons_coe, ← Multiset.singleton_add, Multiset.count_add] at ha ⊢
      omega
  | detached _ _ ih =>
      rw [total_cons, total_cons] at ih ⊢
      rw [ids_unary, ← Multiset.cons_coe, Multiset.cons_add, Multiset.cons_add]
      exact ih.trans (Multiset.le_cons_self _ _)
  | product input last onLeft onRight added ih =>
      cases added
      rw [total_perm perm_of_operands, ← total_perm (perm_of_placed last onLeft onRight)] at ih
      simp only [total_cons] at ih ⊢
      rw [ids_binary, ids_binary, ← numbers_add input.le (Nat.le_succ _), numbers_succ]
      refine Multiset.le_iff_count.mpr fun a => ?_
      have ha := Multiset.le_iff_count.mp ih a
      simp only [← Multiset.cons_coe, ← Multiset.singleton_add, ← Multiset.coe_add,
        Multiset.count_add] at ha ⊢
      omega

theorem every {P : Operator → Prop} (h : Reordered n p c m q c')
    (hP : ∀ x ∈ p :: c.waiting, x.Every P) : ∀ x ∈ q :: c'.waiting, x.Every P := by
  induction h with
  | leaf => exact hP
  | kept _ added ih | project _ added ih =>
      cases added
      simp only [List.forall_mem_cons, every_unary] at hP ih ⊢
      exact ⟨⟨hP.1.1, (ih ⟨hP.1.2, hP.2⟩).1⟩, (ih ⟨hP.1.2, hP.2⟩).2⟩
  | detached _ _ ih =>
      simp only [List.forall_mem_cons, every_unary] at hP ih ⊢
      exact ih ⟨hP.1.2, hP.2⟩
  | product _ last onLeft onRight added ih =>
      cases added
      simp only [List.forall_mem_cons, every_binary] at hP
      have hl := ih fun x hx => by
        have hm := perm_of_operands.mem_iff.mp hx
        simp only [List.mem_cons] at hm
        obtain rfl | rfl | hm := hm
        · exact hP.1.2.1
        · exact hP.1.2.2
        · exact hP.2 x hm
      have hlr := fun x hx => hl x ((perm_of_placed last onLeft onRight).mem_iff.mp hx)
      simp only [List.forall_mem_cons, every_binary] at hlr ⊢
      exact ⟨⟨hP.1.1, hlr.1, hlr.2.1⟩, hlr.2.2⟩

theorem still (h : Reordered n p c m q c') (hc : Operator.product ∉ p.chain)
    (hm : c.moved = []) : c' = c ∧ q.columns = p.columns := by
  induction h with
  | leaf _ => exact ⟨rfl, rfl⟩
  | kept _ added ih | project _ added ih =>
      cases added
      rw [Plan.chain, List.mem_cons, not_or] at hc
      obtain ⟨hc', hq⟩ := ih hc.2 hm
      exact ⟨hc', by simp only [Plan.columns, hq]⟩
  | detached _ moved ih =>
      rw [Plan.chain, List.mem_cons, not_or] at hc
      obtain ⟨a, _, ha⟩ := moved
      rw [(ih hc.2 hm).1, hm] at ha
      cases ha
  | product _ _ _ _ _ _ => exact absurd List.mem_cons_self hc

/-- What a projection of an unbroken chain stands on, the walk leaves as it is. -/
theorem still_of_unbroken {cs : List Column} (h : Reordered n p c m q c')
    (hu : Unbroken (.project cs :: p.chain)) (hm : c.moved = []) :
    c' = c ∧ q.columns = p.columns := by
  refine h.still (fun hc => ?_) hm
  cases (List.pairwise_cons.mp hu).1 _ hc rfl

/-- The plans at hand have the same columns in sight between them. -/
theorem total_columns (h : Reordered n p c m q c') (hu : Unbroken p.chain) (hm : c.moved = []) :
    total Plan.columns (q :: c'.waiting) = total Plan.columns (p :: c.waiting) := by
  induction h with
  | leaf _ => rfl
  | kept _ added ih =>
      cases added
      have hi := ih hu.of_cons hm
      rw [total_cons, total_cons] at hi ⊢
      exact hi
  | detached _ _ ih =>
      have hi := ih hu.of_cons hm
      rw [total_cons, total_cons] at hi ⊢
      exact hi
  | project input added _ =>
      cases added
      obtain ⟨hc, hq⟩ := input.still_of_unbroken hu hm
      rw [total_cons, total_cons, Plan.columns, Plan.columns, hc, hq]
  | product _ last onLeft onRight added ih =>
      cases added
      have hi := ih hu.of_cons hm
      rw [total_perm perm_of_operands, ← total_perm (perm_of_placed last onLeft onRight)] at hi
      simpa [total_cons, Plan.columns, ← Multiset.coe_add, add_assoc] using hi

theorem covered {s : Statistics} (h : Reordered n p c m q c') (hp : p.Estimated s)
    (hu : Unbroken p.chain) (hm : c.moved = []) :
    ∀ predicate ∈ c'.detached, predicate ∈ c.detached ∨ predicate.columns ⊆ p.columns := by
  induction h generalizing s with
  | leaf _ => exact fun _ hd => .inl hd
  | kept _ _ ih =>
      cases hp with
      | select _ hq _ => exact ih hq hu.of_cons hm
  | @detached _ predicate _ _ _ _ _ c' _ _ ih =>
      have hown : predicate.columns ⊆ _ := hp.own_covered rfl
      cases hp with
      | select _ hq _ =>
          intro x hx
          obtain hx | hx := List.mem_append.mp hx
          · exact ih hq hu.of_cons hm x hx
          · exact .inr (List.mem_singleton.mp hx ▸ hown)
  | project input _ _ =>
      rw [(input.still_of_unbroken hu hm).1]
      exact fun _ hd => .inl hd
  | product _ _ onLeft onRight _ ih =>
      obtain ⟨_, ⟨_, hl⟩, _⟩ := hp.binary
      rw [onRight.detached_eq, onLeft.detached_eq]
      intro x hx
      refine (ih hl hu.of_cons hm x hx).imp id fun hs => ?_
      exact List.subset_append_of_subset_left _ hs

theorem bare (h : Reordered n p c m q c') (hu : Unbroken p.chain) (hm : c.moved = [])
    (hb : p.operator.columns? = none) : q.operator.columns? = none := by
  induction h with
  | leaf bare => exact bare
  | kept _ added _ | product _ _ _ _ added _ =>
      cases added
      rfl
  | @detached _ _ x x' _ _ _ _ input moved ih =>
      refine ih hu.of_cons hm ?_
      cases input with
      | project input added =>
          obtain ⟨a, _, ha⟩ := moved
          rw [(input.still_of_unbroken hu.of_cons hm).1, hm] at ha
          cases ha
      | leaf bare => exact bare
      | kept _ _ | detached _ _ | product _ _ _ _ _ => rfl
  | project _ _ _ => cases hb

end Reordered

end QueryPlan.ReorderProducts
