import QueryPlan.Optimise
import Mathlib.Algebra.Order.Group.Multiset

/-!
What a planner's computation returns. `Returns` says that a computation ends
well between two states, and its laws take a sequence of steps apart. Nodes made
on the way are described by `Added`, stacks of selections by `Stacked`: both
carry the counts of numbers given out before and after, and nothing of the events.
-/

namespace QueryPlan
namespace Planner

variable {α β : Type} {s t u : Progress}

/-- The computation ends well with a result, and leaves the state `t` behind. -/
def Returns (m : Planner α) (s : Progress) (a : α) (t : Progress) : Prop :=
  m.exec s = (.ok a, t)

theorem returns_pure {a b : α} : Returns (pure a) s b t ↔ b = a ∧ t = s := by
  change ((.ok a, s) : Except Error α × Progress) = (.ok b, t) ↔ _
  simp only [Prod.mk.injEq, Except.ok.injEq, eq_comm]

theorem returns_throw {e : Error} {a : α} : Returns (throw e) s a t ↔ False := by
  change ((.error e, s) : Except Error α × Progress) = (.ok a, t) ↔ _
  simp

theorem returns_lift {x : Except Error α} {a : α} :
    Returns (liftM x) s a t ↔ x = .ok a ∧ t = s := by
  change ((x, s) : Except Error α × Progress) = (.ok a, t) ↔ _
  rw [Prod.mk.injEq, eq_comm (a := s)]

theorem exec_bind (m : Planner α) (f : α → Planner β) (s : Progress) :
    (m >>= f).exec s = match m.exec s with
      | (.ok a, t) => (f a).exec t
      | (.error e, t) => (.error e, t) := by
  change StateT.run (ExceptT.run (m >>= f)) s = _
  rw [ExceptT.run_bind, StateT.run_bind]
  simp only [exec]
  rcases StateT.run (ExceptT.run m) s with ⟨_ | _, _⟩ <;> rfl

/-- A sequence returns when both parts do, one after the other. -/
theorem returns_bind {m : Planner α} {f : α → Planner β} {b : β} :
    Returns (m >>= f) s b u ↔ ∃ a t, Returns m s a t ∧ Returns (f a) t b u := by
  unfold Returns
  rw [exec_bind]
  rcases m.exec s with ⟨e | a, t⟩
  · simp
  · simp only [Prod.mk.injEq, Except.ok.injEq]
    constructor
    · exact fun h => ⟨a, t, ⟨rfl, rfl⟩, h⟩
    · intro hx
      obtain ⟨a, t, ⟨rfl, rfl⟩, h⟩ := hx
      exact h

theorem Returns.unique {m : Planner α} {a b : α} (h : Returns m s a t) (h' : Returns m s b u) :
    a = b ∧ t = u := by
  unfold Returns at h h'
  rw [h, Prod.mk.injEq, Except.ok.injEq] at h'
  exact h'

theorem returns_report {e : Event} {x : Unit} :
    Returns (report e) s x t ↔ t = ⟨s.issued, s.events.push e⟩ := by
  change ((.ok (), _) : Except Error Unit × Progress) = (.ok x, t) ↔ _
  rw [Prod.mk.injEq, eq_comm (b := t)]
  exact and_iff_right rfl

/-- The computation ends well. -/
def Succeeds (m : Planner α) (s : Progress) : Prop :=
  ∃ a t, Returns m s a t

/-- To run a computation is to see whether it ends well. -/
theorem returns_of_isOk {m : Planner α} (h : (m.exec s).1.isOk) :
    ∃ a, Returns m s a (m.exec s).2 := by
  unfold Returns
  generalize m.exec s = x at h ⊢
  obtain ⟨e | a, t⟩ := x
  · cases h
  · exact ⟨a, rfl⟩

theorem succeeds_pure {a : α} : Succeeds (pure a) s :=
  ⟨a, s, returns_pure.mpr ⟨rfl, rfl⟩⟩

theorem Returns.bind {m : Planner α} {f : α → Planner β} {a : α} (h : Returns m s a t)
    (hf : Succeeds (f a) t) : Succeeds (m >>= f) s := by
  obtain ⟨b, u, hb⟩ := hf
  exact ⟨b, u, returns_bind.mpr ⟨a, t, h, hb⟩⟩

theorem Succeeds.bind {m : Planner α} {f : α → Planner β} (h : Succeeds m s)
    (hf : ∀ a t, Returns m s a t → Succeeds (f a) t) : Succeeds (m >>= f) s := by
  obtain ⟨a, t, ha⟩ := h
  exact ha.bind (hf a t ha)

theorem returns_of_report (e : Event) (s : Progress) :
    Returns (report e) s () ⟨s.issued, s.events.push e⟩ :=
  returns_report.mpr rfl

theorem returns_of_ok {x : Except Error α} {a : α} (h : x = .ok a) (s : Progress) :
    Returns (liftM x) s a s :=
  returns_lift.mpr ⟨h, rfl⟩

section MapM

variable {f : α → Planner β} {a b : α} {as : List α} {ys : List β}

theorem returns_mapM_nil : Returns (([] : List α).mapM f) s ys t ↔ ys = [] ∧ t = s := by
  rw [List.mapM_nil, returns_pure]

theorem returns_mapM_cons :
    Returns ((a :: as).mapM f) s ys t ↔ ∃ y u zs, Returns (f a) s y u ∧
      Returns (as.mapM f) u zs t ∧ ys = y :: zs := by
  simp only [List.mapM_cons, returns_bind, returns_pure]
  refine ⟨fun h => ?_, fun h => ?_⟩
  · obtain ⟨y, u, hy, zs, v, hzs, rfl, rfl⟩ := h
    exact ⟨y, u, zs, hy, hzs, rfl⟩
  · obtain ⟨y, u, zs, hy, hzs, rfl⟩ := h
    exact ⟨y, u, hy, zs, t, hzs, rfl, rfl⟩

theorem returns_mapM_one :
    Returns ([a].mapM f) s ys t ↔ ∃ y, Returns (f a) s y t ∧ ys = [y] := by
  simp only [returns_mapM_cons, returns_mapM_nil]
  refine ⟨fun h => ?_, fun h => ?_⟩
  · obtain ⟨y, u, _, hy, ⟨rfl, rfl⟩, rfl⟩ := h
    exact ⟨y, hy, rfl⟩
  · obtain ⟨y, hy, rfl⟩ := h
    exact ⟨y, t, [], hy, ⟨rfl, rfl⟩, rfl⟩

theorem returns_mapM_two :
    Returns ([a, b].mapM f) s ys t ↔ ∃ y z u, Returns (f a) s y u ∧ Returns (f b) u z t ∧
      ys = [y, z] := by
  rw [returns_mapM_cons]
  simp only [returns_mapM_one]
  refine ⟨fun h => ?_, fun h => ?_⟩
  · obtain ⟨y, u, _, hy, ⟨z, hz, rfl⟩, rfl⟩ := h
    exact ⟨y, z, u, hy, hz, rfl⟩
  · obtain ⟨y, z, u, hy, hz, rfl⟩ := h
    exact ⟨y, u, [z], hy, ⟨z, hz, rfl⟩, rfl⟩

end MapM

/-- Reports give out no numbers and never fail. -/
theorem returns_forM_report {γ : Type} (cs : List γ) (e : γ → Event) (s : Progress) :
    ∃ t, Returns (cs.forM fun c => report (e c)) s () t ∧ t.issued = s.issued := by
  induction cs generalizing s with
  | nil => exact ⟨s, returns_pure.mpr ⟨rfl, rfl⟩, rfl⟩
  | cons c cs ih =>
      obtain ⟨t, ht, hi⟩ := ih ⟨s.issued, s.events.push (e c)⟩
      exact ⟨t, returns_bind.mpr ⟨(), _, returns_report.mpr rfl, ht⟩, hi⟩

theorem returns_freshId {i : NodeId} :
    Returns freshId s i t ↔ i = .ofNat (s.issued + 1) ∧ t = ⟨s.issued + 1, s.events⟩ := by
  change ((.ok (UInt32.ofNat s.issued + 1), _) : Except Error NodeId × Progress) = (.ok i, t) ↔ _
  rw [Prod.mk.injEq, Except.ok.injEq, eq_comm (b := i), eq_comm (b := t), UInt32.ofNat_add]
  rfl

/-- A node over finished inputs: it has the number after `n`, and its estimate. -/
inductive Added (n : Nat) (op : Operator) (qs : List Plan) : Plan → Prop
  | mk {s : Statistics} (h : (Plan.mk op qs (.ofNat (n + 1)) none).estimated = .ok s) :
      Added n op qs ⟨op, qs, .ofNat (n + 1), some s⟩

theorem returns_addNode {op : Operator} {qs : List Plan} {p : Plan} :
    Returns (addNode op qs) s p t ↔ Added s.issued op qs p ∧ t = ⟨s.issued + 1, s.events⟩ := by
  simp only [addNode, returns_bind, returns_freshId, returns_lift, returns_pure]
  constructor
  · intro hx
    obtain ⟨_, _, ⟨rfl, rfl⟩, _, _, ⟨h, rfl⟩, rfl, rfl⟩ := hx
    exact ⟨.mk h, rfl⟩
  · intro hx
    obtain ⟨⟨h⟩, rfl⟩ := hx
    exact ⟨_, _, ⟨rfl, rfl⟩, _, _, ⟨h, rfl⟩, rfl, rfl⟩

/-- Selections over a plan, the first predicate lowest. -/
inductive Stacked : Nat → Plan → List Predicate → Nat → Plan → Prop
  | nil {n : Nat} {p : Plan} : Stacked n p [] n p
  | cons {n m : Nat} {p q r : Plan} {predicate : Predicate} {predicates : List Predicate}
      (added : Added n (.select predicate) [p] q) (above : Stacked (n + 1) q predicates m r) :
      Stacked n p (predicate :: predicates) m r

theorem stacked_of_returns {predicates : List Predicate} {p q : Plan}
    (h : Returns (stackSelections p predicates) s q t) :
    Stacked s.issued p predicates t.issued q := by
  induction predicates generalizing s p with
  | nil =>
      obtain ⟨rfl, rfl⟩ := returns_pure.mp h
      exact .nil
  | cons predicate predicates ih =>
      obtain ⟨r, u, hr, h⟩ := returns_bind.mp h
      obtain ⟨added, rfl⟩ := returns_addNode.mp hr
      exact .cons added (ih h)

/-- The numbers given out while the count went from `n` to `m`. -/
def numbers (n m : Nat) : Multiset NodeId :=
  (List.range' (n + 1) (m - n)).map UInt32.ofNat

theorem numbers_self (n : Nat) : numbers n n = 0 := by
  simp [numbers]

theorem numbers_succ (n : Nat) : numbers n (n + 1) = {.ofNat (n + 1)} := by
  simp [numbers]

theorem numbers_add {n m k : Nat} (h : n ≤ m) (h' : m ≤ k) :
    numbers n m + numbers m k = numbers n k := by
  have hm : n + 1 + 1 * (m - n) = m + 1 := by omega
  have hk : k - n = (m - n) + (k - m) := by omega
  rw [numbers, numbers, numbers, Multiset.coe_add, ← List.map_append, hk,
    ← List.range'_append, hm]

/-- Numbers given out come again only after all the others. -/
theorem numbers_nodup {n m : Nat} (h : m ≤ n + 2 ^ 32) : (numbers n m).Nodup := by
  rw [numbers, Multiset.coe_nodup]
  refine List.Nodup.map_on ?_ List.nodup_range'
  intro i hi j hj he
  rw [List.mem_range'_1] at hi hj
  have hij : i % 2 ^ 32 = j % 2 ^ 32 := by simpa using congrArg UInt32.toNat he
  omega

/-- As long as numbers do not start again, none exceeds the last. -/
theorem le_of_mem_numbers {n m : Nat} {i : NodeId} (hm : m < 2 ^ 32) (hi : i ∈ numbers n m) :
    i ≤ .ofNat m := by
  rw [numbers, Multiset.mem_coe, List.mem_map] at hi
  obtain ⟨k, hk, rfl⟩ := hi
  rw [List.mem_range'_1] at hk
  rw [UInt32.le_iff_toNat_le, UInt32.toNat_ofNat', UInt32.toNat_ofNat', Nat.mod_eq_of_lt hm]
  exact (Nat.mod_le k _).trans (by omega)

end Planner
end QueryPlan
