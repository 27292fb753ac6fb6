import QueryPlan.Planner.Basic
import QueryPlan.Rule.Floating

/-!
Moves each selection to the lowest place where its columns are in sight.
Predicates are set afloat on the way down. A scan takes the comparisons with a
constant on its own columns; a product or join takes every predicate its output
covers. A selection whose predicate nobody took stays where it was. Projections
let everything through.
-/

namespace QueryPlan.PushSelects

open Planner

/-- Puts the floating predicates that pass the test above a plan. -/
def settle (p : Plan) (floating : Floating) (test : Predicate → Bool)
    (event : Predicate → Event) : Planner (Plan × Floating) := do
  let predicates := floating.taken test
  predicates.forM fun predicate => report (event predicate)
  return (← stackSelections p predicates, floating.untaken test)

def settleCovered (p : Plan) (floating : Floating) : Planner (Plan × Floating) := do
  let s ← p.output
  settle p floating (fun predicate => predicate.CoveredBy s) fun predicate =>
    .placedAbove predicate p.operator

/-- The plan with floating predicates placed in it, and those still afloat above it. -/
def push : Plan → Floating → Planner (Plan × Floating)
  | p@⟨.scan r, _, _, _⟩, floating =>
      settle p floating (fun predicate => predicate.isEqualsValue && predicate.left ∈ r.statistics)
        fun predicate => .placedAboveScan predicate r.name
  | p@⟨.select _, [], _, _⟩, _ => throw (p.noInput 0)
  | ⟨.select predicate, q :: _, id, _⟩, floating => do
      let (q, floating) ← push q (floating.add id predicate)
      match floating.remove? id with
      | some floating =>
          report (.kept predicate)
          return (← addNode (.select predicate) [q], floating)
      | none => return (q, floating)
  | p@⟨.project _, [], _, _⟩, _ => throw (p.noInput 0)
  | ⟨.project cs, q :: _, _, _⟩, floating => do
      let (q, floating) ← push q floating
      return (← addNode (.project cs) [q], floating)
  | p@⟨.product, [], _, _⟩, _ | p@⟨.join _, [], _, _⟩, _ => throw (p.noInput 0)
  | p@⟨.product, [l], _, _⟩, floating | p@⟨.join _, [l], _, _⟩, floating => do
      discard (push l floating)
      throw (p.noInput 1)
  | ⟨.product, l :: r :: _, _, _⟩, floating => do
      let (l, floating) ← push l floating
      let (r, floating) ← push r floating
      settleCovered (← addNode .product [l, r]) floating
  | ⟨.join predicate, l :: r :: _, _, _⟩, floating => do
      let (l, floating) ← push l floating
      let (r, floating) ← push r floating
      settleCovered (← addNode (.join predicate) [l, r]) floating

def run (p : Plan) : Planner Plan := do
  let (p, floating) ← push p []
  if floating.isEmpty then return p
  else throw (.malformed (.unplacedSelections (floating.map Floating.Entry.predicate)))

end QueryPlan.PushSelects
