import QueryPlan.Rule.PushSelects
import QueryPlan.Rule.ReorderProducts
import QueryPlan.Rule.FuseJoins
import QueryPlan.Rule.PushProjects

/-!
Optimisation of a canonical plan. The plan is first copied with fresh numbers
and estimates, its scans read anew from the catalogue; then the rules change it
one after the other.
-/

namespace QueryPlan

open Planner

def Rule.apply : Rule → Plan → Planner Plan
  | pushSelectsDown => PushSelects.run
  | reorderProducts => ReorderProducts.run
  | fuseJoins => FuseJoins.run
  | pushProjectsDown => PushProjects.run

/-- Selections sink, small inputs sink, what was detached sinks again, joins are
fused and columns are dropped. -/
def Rule.standard : List Rule :=
  [pushSelectsDown, reorderProducts, pushSelectsDown, fuseJoins, pushProjectsDown]

structure Options where
  disabled : List Rule
  explainPhases : Bool

def Options.standard : Options :=
  ⟨[], false⟩

mutual

/-- A canonical plan with fresh numbers and estimates. Joins are not canonical. -/
def prepare (catalogue : Catalogue) : Plan → Planner Plan
  | ⟨op, ps, _, _⟩ => do
      if ps.length ≠ op.arity then
        throw (.malformed (.wrongArity op ps.length))
      match op with
      | .scan r => addNode (.scan (← catalogue.resolve r.name)) []
      | .join predicate => throw (.malformed (.joinInCanonicalPlan predicate))
      | .select _ | .project _ | .product => addNode op (← prepareAll catalogue ps)

def prepareAll (catalogue : Catalogue) : List Plan → Planner (List Plan)
  | [] => return []
  | p :: ps => return (← prepare catalogue p) :: (← prepareAll catalogue ps)

end

/-- One rule of a run; a disabled rule is passed over. -/
def Options.step (options : Options) (p : Plan) (rule : Rule) : Planner Plan := do
  if rule ∈ options.disabled then
    report (.skipped rule)
    return p
  report (.applying rule)
  let q ← rule.apply p
  if options.explainPhases then report (.applied rule q)
  return q

/-- The plan that the rules make of a canonical plan, taken in the order given. -/
def optimise (catalogue : Catalogue) (rules : List Rule) (options : Options) (p : Plan) :
    Planner Plan := do
  rules.foldlM options.step (← prepare catalogue p)

end QueryPlan
