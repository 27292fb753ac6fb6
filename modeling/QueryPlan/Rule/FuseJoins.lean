import QueryPlan.Planner.Basic
import QueryPlan.Rule.Floating

/-!
Fuses a product with an equation of columns above it into a join. Equations are
collected on the way down. At a product, those that equate a column of one input
with a column of the other are candidates, and the one expected to leave the
fewest tuples is chosen, the topmost of equals. Its selection disappears, the
others stay. Below a product or join the collection starts afresh, so an
equation meets no product but the one where its two sides come together.
-/

namespace QueryPlan.FuseJoins

open Planner

def cheapest (s : Statistics) (candidates : Floating) : Planner (Option (Floating.Entry × Count)) :=
  candidates.foldlM (fun best e => do
    let n := (← s.select e.predicate).tuples
    report (.candidate e.predicate n)
    match best with
    | some (_, least) => return if n < least then some (e, n) else best
    | none => return some (e, n)) none

def pick (product l r : Plan) (floating : Floating) : Planner (Option Floating.Entry) := do
  let s ← product.output
  let a ← l.output
  let b ← r.output
  let candidates := floating.filter fun e => e.predicate.Links a b
  if candidates.length > 1 then
    report (.severalCandidates candidates.length product.id)
  return (← cheapest s candidates).map Prod.fst

/-- The join on a predicate, its left column turned to the left input. -/
def joined (predicate : Predicate) (l r : Plan) : Planner Plan := do
  let s ← l.output
  let predicate := if predicate.left ∈ s then predicate else predicate.swapped
  report (.fused predicate)
  addNode (.join predicate) [l, r]

/-- The plan with products fused, and the equations above it that are still selections. -/
def fuse : Plan → Floating → Planner (Plan × Floating)
  | p@⟨.select _, [], _, _⟩, _ | p@⟨.project _, [], _, _⟩, _ => throw (p.noInput 0)
  | ⟨.select predicate, q :: _, id, _⟩, floating => do
      if predicate.isEqualsValue then
        let (q, floating) ← fuse q floating
        return (← addNode (.select predicate) [q], floating)
      else
        let (q, floating) ← fuse q (floating.add id predicate)
        match floating.remove? id with
        | some floating => return (← addNode (.select predicate) [q], floating)
        | none => return (q, floating)
  | ⟨.project cs, q :: _, _, _⟩, floating => do
      let (q, floating) ← fuse q floating
      return (← addNode (.project cs) [q], floating)
  | p@⟨.product, [], _, _⟩, _ => do
      discard p.output
      throw (p.noInput 0)
  | p@⟨.product, [l], _, _⟩, _ => do
      discard p.output
      discard l.output
      throw (p.noInput 1)
  | p@⟨.product, l :: r :: _, _, _⟩, floating => do
      let chosen ← pick p l r floating
      let (l, _) ← fuse l []
      let (r, _) ← fuse r []
      match chosen with
      | some e => return (← joined e.predicate l r, (floating.remove? e.origin).getD floating)
      | none => return (← addNode .product [l, r], floating)
  | p@⟨.join _, [], _, _⟩, _ => throw (p.noInput 0)
  | p@⟨.join _, [l], _, _⟩, _ => do
      discard (fuse l [])
      throw (p.noInput 1)
  | ⟨.join predicate, l :: r :: _, _, _⟩, floating => do
      let (l, _) ← fuse l []
      let (r, _) ← fuse r []
      return (← addNode (.join predicate) [l, r], floating)
  | p@⟨.scan _, _, _, _⟩, floating => return (p, floating)

def run (p : Plan) : Planner Plan := do
  return (← fuse p []).1

end QueryPlan.FuseJoins
