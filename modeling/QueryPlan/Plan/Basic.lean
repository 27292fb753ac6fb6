import QueryPlan.Resolve

/-!
Query plans. A plan is its topmost node with the plans below it: an operator,
its inputs from left to right, a number, and the statistics expected of its
output once they have been estimated. Nothing ties the number of inputs to the
operator's arity; a plan that breaks the tie is found out when it is estimated.
-/

namespace QueryPlan

structure Plan where
  operator : Operator
  inputs : List Plan
  id : NodeId
  estimate : Option Statistics

namespace Plan

def noInput (p : Plan) (i : Nat) : Error :=
  .malformed (.noInput p.operator p.id i)

def input (p : Plan) (i : Nat) : Except Error Plan :=
  match p.inputs[i]? with
  | some q => .ok q
  | none => .error (p.noInput i)

/-- The statistics of the output; a plan must have been estimated to have any. -/
def output (p : Plan) : Except Error Statistics :=
  match p.estimate with
  | some s => .ok s
  | none => .error (.malformed (.notEstimated p.operator p.id))

def withEstimate (p : Plan) (s : Statistics) : Plan :=
  { p with estimate := some s }

mutual

/-- Two plans are the same when operators, inputs and estimates agree. The
numbers of their nodes do not matter. -/
def same : Plan → Plan → Bool
  | ⟨op, ps, _, s⟩, ⟨op', qs, _, s'⟩ => op = op' && allSame ps qs && s = s'

def allSame : List Plan → List Plan → Bool
  | [], [] => true
  | p :: ps, q :: qs => same p q && allSame ps qs
  | [], _ :: _ | _ :: _, [] => false

end

mutual

/-- The plan with every node numbered zero. -/
def unnumbered : Plan → Plan
  | ⟨op, ps, _, s⟩ => ⟨op, allUnnumbered ps, 0, s⟩

def allUnnumbered : List Plan → List Plan
  | [] => []
  | p :: ps => unnumbered p :: allUnnumbered ps

end

mutual

theorem same_iff (p q : Plan) : same p q ↔ p.unnumbered = q.unnumbered := by
  obtain ⟨op, ps, i, s⟩ := p
  obtain ⟨op', qs, j, s'⟩ := q
  simp [same, unnumbered, allSame_iff ps qs, and_assoc]

theorem allSame_iff (ps qs : List Plan) :
    allSame ps qs ↔ allUnnumbered ps = allUnnumbered qs := by
  cases ps with
  | nil => cases qs <;> simp [allSame, allUnnumbered]
  | cons p ps =>
      cases qs with
      | nil => simp [allSame, allUnnumbered]
      | cons q qs => simp [allSame, allUnnumbered, same_iff p q, allSame_iff ps qs]

end

end Plan
end QueryPlan
