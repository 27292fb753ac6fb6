import QueryPlan.Plan.Shape

/-!
The traversal of a plan by a stack. Taking plans from the top of a stack comes to an end, whatever
is on it, and gives each plan on it followed by all below it in preorder. The preorder is the order
of the ways that lead to the nodes, compared as words: each position comes once, before those
below it and those to its right.
-/

namespace QueryPlan.Plan

variable {p q : Plan} {stack rest ps qs : List Plan}

/-- These plans are taken from the stack one after the other, and then there are no more. -/
inductive Yields : List Plan → List Plan → Prop
  | done {stack : List Plan} (empty : next stack = none) : Yields stack []
  | more {stack rest : List Plan} {p : Plan} {ps : List Plan}
      (top : next stack = some (p, rest)) (others : Yields rest ps) : Yields stack (p :: ps)

theorem yields_visit (stack : List Plan) : Yields stack (visit stack) := by
  fun_induction visit stack with
  | case1 stack empty => exact .done empty
  | case2 stack p rest top _ ih => exact .more top ih

theorem Yields.unique (h : Yields stack ps) (h' : Yields stack qs) : ps = qs := by
  induction h generalizing qs with
  | done empty =>
      cases h' with
      | done _ => rfl
      | more top _ => cases empty.symm.trans top
  | more top _ ih =>
      cases h' with
      | done empty => cases empty.symm.trans top
      | more top' others =>
          cases top.symm.trans top'
          rw [ih others]

theorem preorderAll_append (ps qs : List Plan) :
    preorderAll (ps ++ qs) = preorderAll ps ++ preorderAll qs := by
  simp only [preorderAll_eq_flatMap, List.flatMap_append]

theorem visit_eq (stack : List Plan) : visit stack = preorderAll stack := by
  fun_induction visit stack with
  | case1 stack empty =>
      cases stack with
      | nil => rfl
      | cons p stack => cases empty
  | case2 stack p rest top _ ih =>
      cases stack with
      | nil => cases top
      | cons q stack =>
          cases top
          rw [ih, List.foldr_cons_eq_append', preorderAll_append, preorderAll, preorder_eq,
            List.cons_append]

theorem nodes_eq (p : Plan) : p.nodes = p.preorder := by
  rw [nodes, visit_eq, preorderAll, preorderAll, List.append_nil]

/-- The plan at the end of a way down, which goes on to one input after the other. -/
def at? : Plan → List Nat → Option Plan
  | p, [] => some p
  | p, i :: way => p.inputs[i]?.bind fun q => q.at? way

mutual

/-- The ways to all nodes, left before right. -/
def ways : Plan → List (List Nat)
  | ⟨_, ps, _, _⟩ => [] :: waysFrom 0 ps

/-- The ways into inputs of which the first is the one with this index. -/
def waysFrom (i : Nat) : List Plan → List (List Nat)
  | [] => []
  | p :: ps => (ways p).map (i :: ·) ++ waysFrom (i + 1) ps

end

theorem at?_cons {i : Nat} (hq : p.inputs[i]? = some q) (way : List Nat) :
    p.at? (i :: way) = q.at? way := by
  rw [at?, hq, Option.bind_some]

theorem getElem?_of_drop {i : Nat} (h : ps.drop i = q :: qs) :
    ps[i]? = some q ∧ ps.drop (i + 1) = qs := by
  refine ⟨?_, ?_⟩
  · rw [← Nat.add_zero i, ← List.getElem?_drop, h, List.getElem?_cons_zero]
  · rw [← List.drop_drop, h, List.drop_one, List.tail_cons]

mutual

/-- The ways lead to the nodes in preorder. -/
theorem map_at?_ways (p : Plan) : p.ways.map p.at? = p.preorder.map some := by
  obtain ⟨op, ps, i, e⟩ := p
  have hps := map_at?_waysFrom ps ⟨op, ps, i, e⟩ 0 List.drop_zero
  rw [ways, List.map_cons, preorder, List.map_cons, hps, at?]

theorem map_at?_waysFrom (ps : List Plan) (p : Plan) (i : Nat) (h : p.inputs.drop i = ps) :
    (waysFrom i ps).map p.at? = (preorderAll ps).map some := by
  cases ps with
  | nil => rfl
  | cons q ps =>
      obtain ⟨hq, hps⟩ := getElem?_of_drop h
      have hat : p.at? ∘ (i :: ·) = q.at? := funext (at?_cons hq)
      rw [waysFrom, preorderAll, List.map_append, List.map_append, List.map_map, hat,
        map_at?_ways q, map_at?_waysFrom ps p (i + 1) hps]

end

theorem mem_waysFrom {i : Nat} {w : List Nat} :
    w ∈ waysFrom i ps ↔ ∃ k q way, w = (i + k) :: way ∧ ps[k]? = some q ∧ way ∈ q.ways := by
  induction ps generalizing i with
  | nil => simp [waysFrom]
  | cons p ps ih =>
      rw [waysFrom, List.mem_append, List.mem_map, ih]
      constructor
      · intro h
        obtain ⟨way, hway, rfl⟩ | ⟨k, q, way, rfl, hq, hway⟩ := h
        · exact ⟨0, p, way, rfl, rfl, hway⟩
        · exact ⟨k + 1, q, way, by rw [Nat.add_assoc, Nat.add_comm 1], hq, hway⟩
      · intro h
        obtain ⟨k, q, way, rfl, hq, hway⟩ := h
        cases k with
        | zero =>
            obtain rfl : p = q := Option.some.inj hq
            exact .inl ⟨way, hway, rfl⟩
        | succ k => exact .inr ⟨k, q, way, by rw [Nat.add_assoc, Nat.add_comm 1], hq, hway⟩

theorem ways_eq (p : Plan) : p.ways = [] :: waysFrom 0 p.inputs := by
  obtain ⟨op, ps, i, e⟩ := p
  rw [ways]

theorem mem_ways {way : List Nat} : way ∈ p.ways ↔ (p.at? way).isSome := by
  induction way generalizing p with
  | nil => simp [ways_eq, at?]
  | cons i way ih =>
      rw [ways_eq, List.mem_cons, mem_waysFrom]
      constructor
      · intro h
        obtain h | ⟨k, q, _, h, hq, hway⟩ := h
        · cases h
        · rw [Nat.zero_add] at h
          cases h
          rw [at?_cons hq]
          exact ih.mp hway
      · intro h
        obtain ⟨r, hr⟩ := Option.isSome_iff_exists.mp h
        obtain ⟨q, hq, hway⟩ := Option.bind_eq_some_iff.mp hr
        refine .inr ⟨i, q, way, by rw [Nat.zero_add], hq, ih.mpr ?_⟩
        rw [hway, Option.isSome_some]

mutual

/-- Each way comes before those that go further and those that turn right of it. -/
theorem ways_pairwise (p : Plan) : p.ways.Pairwise (List.Lex (· < ·)) := by
  obtain ⟨op, ps, i, e⟩ := p
  rw [ways, List.pairwise_cons]
  refine ⟨fun w hw => ?_, waysFrom_pairwise ps 0⟩
  obtain ⟨k, _, way, rfl, _⟩ := mem_waysFrom.mp hw
  exact .nil

theorem waysFrom_pairwise (ps : List Plan) (i : Nat) :
    (waysFrom i ps).Pairwise (List.Lex (· < ·)) := by
  cases ps with
  | nil => exact .nil
  | cons p ps =>
      rw [waysFrom, List.pairwise_append, List.pairwise_map]
      refine ⟨(ways_pairwise p).imp .cons, waysFrom_pairwise ps (i + 1), fun v hv w hw => ?_⟩
      obtain ⟨_, _, rfl⟩ := List.mem_map.mp hv
      obtain ⟨k, _, _, rfl, _⟩ := mem_waysFrom.mp hw
      exact .rel (by omega)

end

/-- Taking plans from a stack that holds just one ends, with its nodes in preorder: the topmost,
and then all below it, input by input. They stand at all the positions there are, each of which
comes once, in the order of the ways that lead to them. -/
theorem nodes_in_preorder (p : Plan) :
    (∀ ps, Yields [p] ps ↔ ps = p.nodes) ∧ p.nodes = p.preorder ∧
      p.preorder = p :: p.inputs.flatMap preorder ∧
      ∃ ways : List (List Nat), ways.Pairwise (List.Lex (· < ·)) ∧
        (∀ way, way ∈ ways ↔ (p.at? way).isSome) ∧ ways.map p.at? = p.nodes.map some := by
  refine ⟨fun ps => ⟨fun h => h.unique (yields_visit [p]), fun h => ?_⟩, nodes_eq p, ?_,
    p.ways, ways_pairwise p, fun _ => mem_ways, ?_⟩
  · rw [h]
    exact yields_visit [p]
  · rw [preorder_eq, preorderAll_eq_flatMap]
  · rw [nodes_eq, map_at?_ways]

end QueryPlan.Plan
