import QueryPlan.Planner.Basic

/-!
Projects columns away as early as possible. The rule applies below a projection
at the root. The columns needed start with the root's and grow by those of
every predicate on the way down. Projections met are dropped, and each scan,
selection, product and join gets a projection to the needed columns of its
output, unless that would keep all of them or none.
-/

namespace QueryPlan.PushProjects

open Planner

def keepNeeded (needed : List Column) (p : Plan) : Planner Plan := do
  let s ← p.output
  let cs := s.columns.filter (· ∈ needed)
  if cs.isEmpty || cs.length = s.attributes.length then return p
  else
    report (.projected (.project cs) p.operator)
    addNode (.project cs) [p]

mutual

/-- The plan with no more columns than are needed above it or by its own predicates. -/
def push (needed : List Column) : Plan → Planner Plan
  | p@⟨.project _, [], _, _⟩ => throw (p.noInput 0)
  | ⟨.project cs, q :: _, _, _⟩ => push (needed ++ cs) q
  | ⟨.select predicate, qs, _, _⟩ => do
      let qs ← pushAll (needed ++ predicate.columns) qs
      keepNeeded needed (← addNode (.select predicate) qs)
  | ⟨.join predicate, qs, _, _⟩ => do
      let qs ← pushAll (needed ++ predicate.columns) qs
      keepNeeded needed (← addNode (.join predicate) qs)
  | ⟨.product, qs, _, _⟩ => do
      let qs ← pushAll needed qs
      keepNeeded needed (← addNode .product qs)
  | p@⟨.scan _, _, _, _⟩ => keepNeeded needed p

def pushAll (needed : List Column) : List Plan → Planner (List Plan)
  | [] => return []
  | p :: ps => return (← push needed p) :: (← pushAll needed ps)

end

def run (p : Plan) : Planner Plan :=
  match p.operator with
  | .project _ => push [] p
  | .scan _ | .select _ | .product | .join _ => return p

end QueryPlan.PushProjects
