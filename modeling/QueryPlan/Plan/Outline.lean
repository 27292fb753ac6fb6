import QueryPlan.Plan.Basic

/-!
A plan as an indented outline, one line to a node: the operator, and the
number of tuples where it has been estimated. Lines of branches mark the
inputs, with a corner at the last one.
-/

namespace QueryPlan.Plan

/-- The line of the topmost node, without what stands before it. -/
def caption (p : Plan) : String :=
  p.operator.text ++ match p.estimate with
    | some s => " (tuples: " ++ Count.text s.tuples ++ ")"
    | none => ""

mutual

/-- The lines below the topmost node, each behind the margin. -/
def linesBelow (margin : String) : Plan → List String
  | ⟨_, ps, _, _⟩ => inputLines margin ps

def inputLines (margin : String) : List Plan → List String
  | [] => []
  | [p] => (margin ++ "└─ " ++ p.caption) :: linesBelow (margin ++ "   ") p
  | p :: q :: ps =>
      (margin ++ "├─ " ++ p.caption) :: linesBelow (margin ++ "│  ") p ++
        inputLines margin (q :: ps)

end

def outline (p : Plan) : String :=
  String.join ((p.caption :: p.linesBelow "").map (· ++ "\n"))

end QueryPlan.Plan
