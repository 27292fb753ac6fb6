import QueryPlan.Plan.Basic

/-!
The nodes of a plan in preorder. `nodes` keeps a stack of plans still to be
visited, and `next` replaces the topmost by its inputs; `preorder` says by
recursion what the order is.
-/

namespace QueryPlan.Plan

mutual

/-- The number of nodes, counting every position of a shared plan. -/
def size : Plan → Nat
  | ⟨_, ps, _, _⟩ => 1 + totalSize ps

def totalSize : List Plan → Nat
  | [] => 0
  | p :: ps => size p + totalSize ps

end

theorem totalSize_append (ps qs : List Plan) :
    totalSize (ps ++ qs) = totalSize ps + totalSize qs := by
  induction ps with
  | nil => simp [totalSize]
  | cons p ps ih => simp [totalSize, ih, Nat.add_assoc]

theorem size_eq (p : Plan) : p.size = 1 + totalSize p.inputs := by
  obtain ⟨op, ps, i, s⟩ := p
  simp [size]

/-- The plan on top of a stack, and the stack without it but with its inputs. The last of them is
put on first, so that the first comes on top. -/
def next : List Plan → Option (Plan × List Plan)
  | [] => none
  | p :: stack => some (p, p.inputs.foldr List.cons stack)

theorem totalSize_of_next {stack rest : List Plan} {p : Plan} (h : next stack = some (p, rest)) :
    totalSize rest < totalSize stack := by
  cases stack with
  | nil => cases h
  | cons q stack =>
      cases h
      rw [List.foldr_cons_eq_append', totalSize_append, totalSize, size_eq]
      omega

/-- The plans taken from a stack, one after the other, until it is empty. -/
def visit (stack : List Plan) : List Plan :=
  match h : next stack with
  | none => []
  | some (p, rest) =>
      have : totalSize rest < totalSize stack := totalSize_of_next h
      p :: visit rest
termination_by totalSize stack

/-- The node on top and then all below it, left before right. -/
def nodes (p : Plan) : List Plan :=
  visit [p]

mutual

def preorder : Plan → List Plan
  | ⟨op, ps, i, s⟩ => ⟨op, ps, i, s⟩ :: preorderAll ps

def preorderAll : List Plan → List Plan
  | [] => []
  | p :: ps => preorder p ++ preorderAll ps

end

end QueryPlan.Plan
