/-!
The rules of optimisation by name, in the order in which they are listed.
-/

namespace QueryPlan

inductive Rule where
  | pushSelectsDown
  | reorderProducts
  | fuseJoins
  | pushProjectsDown
  deriving DecidableEq, Repr

namespace Rule

def name : Rule → String
  | pushSelectsDown => "PushSelectsDown"
  | reorderProducts => "ReorderProducts"
  | fuseJoins => "FuseJoins"
  | pushProjectsDown => "PushProjectsDown"

def all : List Rule :=
  [pushSelectsDown, reorderProducts, fuseJoins, pushProjectsDown]

def position : Rule → Nat
  | pushSelectsDown => 0
  | reorderProducts => 1
  | fuseJoins => 2
  | pushProjectsDown => 3

theorem getElem?_position (r : Rule) : all[r.position]? = some r := by
  cases r <;> rfl

/-- The rule as messages mention it, in quotes. -/
def label (r : Rule) : String :=
  "\"" ++ r.name ++ "Rule\""

end Rule
end QueryPlan
