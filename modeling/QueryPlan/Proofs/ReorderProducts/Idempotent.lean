import QueryPlan.Proofs.ReorderProducts.Order

/-!
Reordering a chain once is enough. In a chain that is in order no plan finds a smaller one to
be traded for, so a walk along it makes every node anew over what it had below it, and reports
nothing. What reordering leaves behind is in order.
-/

namespace QueryPlan.ReorderProducts

open Planner Plan

theorem trade?_of_least {p : Plan} {waiting : List Plan} (hk : Known (p :: waiting))
    (least : ∀ w ∈ waiting, p.tuples ≤ w.tuples) : trade? p waiting = .ok none := by
  obtain ⟨o, ho⟩ := trade?_ok hk
  cases o with
  | none => exact ho
  | some trade =>
      obtain ⟨k, found, _⟩ := trade?_eq_ok ho
      have hlt := (trade?_least ho).1
      have hle := least trade.received (List.mem_of_getElem? found)
      omega

theorem exchange_of_least {c : Chain} {p : Plan} (hk : Known (p :: c.waiting))
    (least : ∀ w ∈ c.waiting, p.tuples ≤ w.tuples) (event : Operator → Operator → Event)
    (x : Progress) : Returns (c.exchange p event) x (p, c) x := by
  apply returns_bind.mpr
  exact ⟨none, x, returns_of_ok (trade?_of_least hk least) x, returns_pure.mpr ⟨rfl, rfl⟩⟩

theorem place_of_least {l r p : Plan} {c : Chain} {ws : List Plan} {s t : Statistics}
    (last : c.waiting = ws ++ [r]) (hl : l.Estimated s) (hr : r.Estimated t) (hk : Known ws)
    (onLeft : c.deepestAhead = true → ∀ w ∈ ws, l.tuples ≤ w.tuples)
    (onRight : ∀ w ∈ ws, r.tuples ≤ w.tuples) {x : Progress}
    (added : Added x.issued .product [l, r] p) :
    Returns (place l r c) x (p, { c with waiting := ws, deepestAhead := false })
      ⟨x.issued + 1, x.events⟩ := by
  have right : Returns (placeRight l r { c with waiting := ws, deepestAhead := false }) x
      (p, { c with waiting := ws, deepestAhead := false }) ⟨x.issued + 1, x.events⟩ := by
    apply returns_bind.mpr
    refine ⟨_, x, exchange_of_least (known_cons.mpr ⟨⟨t, hr⟩, hk⟩) onRight _ x, ?_⟩
    exact returns_bind.mpr ⟨p, _, .addNode added, returns_pure.mpr ⟨rfl, rfl⟩⟩
  rw [place_eq last]
  split
  · rename_i hd
    apply returns_bind.mpr
    exact ⟨_, x, exchange_of_least (known_cons.mpr ⟨⟨s, hl⟩, hk⟩) (onLeft hd) _ x, right⟩
  · exact right

theorem Rising.waits {first y y₁ right : Plan} {ys ws : List Plan}
    (h : Rising first y y₁ (ys ++ [right]) ws) : Rising first y y₁ ys (ws ++ [right]) := by
  have hpair := h.rising
  rw [← List.cons_append, List.pairwise_append] at hpair
  refine ⟨hpair.1, fun a ha w hw => ?_, fun z hz => h.lowest z ?_, h.stays⟩
  · obtain hw | hw := List.mem_append.mp hw
    · exact h.ahead a (List.mem_append_left [right] ha) w hw
    · exact hpair.2.2 a ha w hw
  · simp at hz ⊢
    tauto

/-- The operands of a chain are in order, below what waits. -/
def Ordered (p : Plan) (ws : List Plan) : Prop :=
  ∀ y y₁ ys, p.operands = y :: y₁ :: ys → Rising y₁ y y₁ ys ws

namespace Ordered

variable {p q l r : Plan} {ws : List Plan} {i : NodeId} {e : Option Statistics}

theorem congr (h : Ordered p ws) (hq : q.spine = p.spine) : Ordered q ws := by
  rwa [Ordered, operands_congr hq]

theorem of_spine (h : p.spine = []) : Ordered p ws := by
  intro y y₁ ys hops
  simp [operands, h] at hops

theorem left (h : Ordered ⟨.product, [l, r], i, e⟩ ws) : Ordered l (ws ++ [r]) := by
  by_cases hl : l.spine = []
  · exact of_spine hl
  · intro y y₁ ys hops
    apply Rising.waits
    apply h
    rw [operands_product hl, hops, List.cons_append, List.cons_append]

theorem deepest (h : Ordered ⟨.product, [l, r], i, e⟩ ws) (hl : l.spine = []) :
    ∀ w ∈ ws, l.tuples ≤ w.tuples :=
  (h l r [] (operands_deepest hl)).lowest

theorem right (h : Ordered ⟨.product, [l, r], i, e⟩ ws) : ∀ w ∈ ws, r.tuples ≤ w.tuples := by
  by_cases hl : l.spine = []
  · exact (h l r [] (operands_deepest hl)).ahead r (List.mem_singleton_self r)
  · obtain ⟨y, y₁, ys, hops⟩ : ∃ y y₁ ys, l.operands = y :: y₁ :: ys := by
      have hlength := length_operands hl
      match hops : l.operands with
      | [] | [_] => simp [hops, hl] at hlength
      | y :: y₁ :: ys => exact ⟨y, y₁, ys, rfl⟩
    have hall := operands_product (r := r) (i := i) (e := e) hl
    rw [hops] at hall
    exact (h y y₁ (ys ++ [r]) hall).ahead r (by simp)

end Ordered

/-- A chain after a walk along a plan that has traded nothing. -/
def Chain.past (c : Chain) (p : Plan) : Chain :=
  { c with deepestAhead := c.deepestAhead && p.spine.isEmpty }

theorem Chain.past_of_spine {c : Chain} {p : Plan} (h : p.spine = []) : c.past p = c := by
  simp [past, h]

section Walk

variable {p q b : Plan} {c c' : Chain} {x y : Progress} {i : NodeId} {e : Option Statistics}
  {predicate : Predicate} {cs : List Column}

/-- A selection that compares nothing that has moved is made again where it stands. -/
theorem returns_select (h : Returns (reorder p c) x (q, c') y)
    (hstay : ¬ predicate.columns.any (· ∈ c'.moved))
    (added : Added y.issued (.select predicate) [q] b) :
    Returns (reorder ⟨.select predicate, [p], i, e⟩ c) x (b, c') ⟨y.issued + 1, y.events⟩ := by
  apply returns_bind.mpr
  refine ⟨_, y, h, ?_⟩
  dsimp only
  rw [if_neg hstay]
  exact returns_bind.mpr ⟨b, _, .addNode added, returns_pure.mpr ⟨rfl, rfl⟩⟩

theorem returns_project (h : Returns (reorder p c) x (q, c') y)
    (added : Added y.issued (.project cs) [q] b) :
    Returns (reorder ⟨.project cs, [p], i, e⟩ c) x (b, c') ⟨y.issued + 1, y.events⟩ := by
  apply returns_bind.mpr
  refine ⟨_, y, h, ?_⟩
  exact returns_bind.mpr ⟨b, _, .addNode added, returns_pure.mpr ⟨rfl, rfl⟩⟩

end Walk

/-- A walk along a chain in order renumbers the nodes of the chain, and does nothing else. -/
theorem returns_of_ordered {p : Plan} {d : Statistics} {c : Chain} (hp : p.Estimated d)
    (hk : Known c.waiting) (hm : c.moved = []) (ho : Ordered p c.waiting) (x : Progress) :
    ∃ q y, Returns (reorder p c) x (q, c.past p) y ∧ q.Estimated d ∧
      q.skeleton = p.skeleton ∧ y.events = x.events := by
  induction hp generalizing c x with
  | scan r i =>
      rw [Chain.past_of_spine rfl]
      exact ⟨_, x, returns_pure.mpr ⟨rfl, rfl⟩, .scan r i, rfl, rfl⟩
  | join i hl hr he =>
      rw [Chain.past_of_spine rfl]
      exact ⟨_, x, returns_pure.mpr ⟨rfl, rfl⟩, .join i hl hr he, rfl, rfl⟩
  | @select p s t predicate i _ he ih =>
      obtain ⟨q, y, h, hq, hs, hevents⟩ := ih hk hm (ho.congr rfl) x
      have hstay : ¬ predicate.columns.any (· ∈ (c.past p).moved) := by
        simp [Chain.past, hm]
      have made := returns_select (i := i) (e := some t) h hstay
        (.mk ((hq.estimated_unary _ _ _).trans he))
      exact ⟨_, _, made, .select _ hq he, by rw [skeleton_unary, skeleton_unary, hs], hevents⟩
  | @project p s t cs i _ he ih =>
      obtain ⟨q, y, h, hq, hs, hevents⟩ := ih hk hm (ho.congr rfl) x
      have made := returns_project (i := i) (e := some t) h
        (.mk ((hq.estimated_unary _ _ _).trans he))
      exact ⟨_, _, made, .project _ hq he, by rw [skeleton_unary, skeleton_unary, hs], hevents⟩
  | @product l r s t i hl hr ihl _ =>
      have hkr : Known (c.waiting ++ [r]) :=
        List.forall_mem_append.mpr ⟨hk, known_cons.mpr ⟨⟨t, hr⟩, List.forall_mem_nil _⟩⟩
      obtain ⟨l', y, h, hl', hs, hevents⟩ :=
        ihl (c := { c with waiting := c.waiting ++ [r] }) hkr hm ho.left x
      have added := Added.mk (n := y.issued) (hl'.estimated_binary hr .product _ _)
      have onLeft : (c.deepestAhead && l.spine.isEmpty) = true →
          ∀ w ∈ c.waiting, l'.tuples ≤ w.tuples := by
        intro hd
        rw [hl'.tuples_eq, ← hl.tuples_eq]
        apply ho.deepest
        simp at hd
        exact hd.2
      have hpast : c.past ⟨.product, [l, r], i, some (s.product t)⟩ =
          { c with deepestAhead := false } := by simp [Chain.past, spine_product]
      have placed := place_of_least (c := Chain.past { c with waiting := c.waiting ++ [r] } l)
        rfl hl' hr hk onLeft ho.right added
      rw [hpast]
      exact ⟨_, _, returns_bind.mpr ⟨_, y, h, placed⟩, .product _ hl' hr,
        by rw [skeleton_binary, skeleton_binary, hs], hevents⟩

section Run

variable {p q : Plan} {s t : Progress} {d : Statistics}

theorem ordered_of_run (h : Returns (run p) s q t) (hp : p.Estimated d)
    (hf : ∀ a ∈ p.operands, a.ProductFree) : Ordered q [] := by
  by_cases hn : p.spine = []
  · obtain ⟨⟨r, c⟩, u, reordered, h⟩ := returns_bind.mp h
    have walk := reordered_of_returns reordered hp
    have hc : Operator.product ∉ p.chain := fun hm => product_mem_chain.mp hm hn
    have hr : r.spine = [] := by
      by_contra hr
      apply hc
      rw [← (walk.skeleton_eq hc rfl).2]
      exact product_mem_chain.mpr hr
    obtain ⟨_, hre⟩ := (walked_of_returns reordered hp).known hp
    exact .of_spine ((restored_of_returns h hre).spine_eq.trans hr)
  · obtain ⟨_, after, rising, _⟩ := arranged_of_run h hp hn hf
    intro y y₁ ys hops
    obtain ⟨rfl, rfl, rfl⟩ : _ ∧ _ ∧ _ := by simpa using after.symm.trans hops
    exact { rising with stays := fun _ => rfl }

/-- Reordering what has been reordered gives the same plan again. Nothing is swapped and nothing
detached, for nothing is reported. -/
theorem run_idempotent (hp : p.Consistent) (hd : p.DistinctColumns) (hu : Unbroken p.chain.tail)
    (hf : ∀ a ∈ p.operands, a.ProductFree) (x : Progress) :
    ∃ q y, Returns (run p) x q y ∧ q.Consistent ∧
      ∀ z, ∃ r z', Returns (run q) z r z' ∧ r.same q ∧ z'.events = z.events := by
  obtain ⟨d, hp⟩ := hp.estimated
  obtain ⟨q, y, h⟩ := succeeds_run hp hu hd x
  obtain ⟨e, hq⟩ := (ran_of_returns h hp).known hp
  refine ⟨q, y, h, hq.consistent, fun z => ?_⟩
  have ho := ordered_of_run h hp hf
  obtain ⟨r, z', hr, hre, hs, hevents⟩ :=
    returns_of_ordered (c := .start) hq (List.forall_mem_nil _) rfl ho z
  exact ⟨r, z', returns_bind.mpr ⟨_, z', hr, returns_pure.mpr ⟨rfl, rfl⟩⟩,
    (same_iff r q).mpr (hq.unnumbered_eq hre hs), hevents⟩

end Run

def banded : Plan :=
  ⟨.project [⟨"x"⟩, ⟨"z"⟩], [⟨.product,
    [⟨.select (.equalsValue ⟨"x"⟩ "1"), [⟨.product,
      [⟨.scan ⟨"r", ⟨16, [⟨⟨"x"⟩, 2⟩]⟩⟩, [], 1, some ⟨16, [⟨⟨"x"⟩, 2⟩]⟩⟩,
        ⟨.scan ⟨"s", ⟨3, [⟨⟨"y"⟩, 3⟩]⟩⟩, [], 2, some ⟨3, [⟨⟨"y"⟩, 3⟩]⟩⟩],
      3, some ⟨48, [⟨⟨"x"⟩, 2⟩, ⟨⟨"y"⟩, 3⟩]⟩⟩], 4, some ⟨24, [⟨⟨"x"⟩, 1⟩, ⟨⟨"y"⟩, 3⟩]⟩⟩,
      ⟨.scan ⟨"t", ⟨5, [⟨⟨"z"⟩, 5⟩]⟩⟩, [], 5, some ⟨5, [⟨⟨"z"⟩, 5⟩]⟩⟩],
    6, some ⟨120, [⟨⟨"x"⟩, 1⟩, ⟨⟨"y"⟩, 3⟩, ⟨⟨"z"⟩, 5⟩]⟩⟩],
  7, some ⟨120, [⟨⟨"x"⟩, 1⟩, ⟨⟨"z"⟩, 5⟩]⟩⟩

theorem run_idempotent_banded :
    ∃ q y, Returns (run banded) .start q y ∧ y.events.size = 2 ∧
      ∀ z, ∃ r z', Returns (run q) z r z' ∧ r.same q ∧ z'.events = z.events := by
  have hp : banded.Estimated ⟨120, [⟨⟨"x"⟩, 1⟩, ⟨⟨"z"⟩, 5⟩]⟩ :=
    .project 7 (.product 6 (.select 4 (.product 3 (.scan _ 1) (.scan _ 2)) rfl) (.scan _ 5)) rfl
  obtain ⟨q, y, h, _, again⟩ :=
    run_idempotent hp.consistent (by decide) (by decide) (by decide) .start
  obtain ⟨_, hrun⟩ := returns_of_isOk (m := run banded) (s := .start) rfl
  obtain ⟨rfl, rfl⟩ := h.unique hrun
  exact ⟨q, _, h, rfl, again⟩

end QueryPlan.ReorderProducts
