import QueryPlan.Planner.Basic

/-!
Moves the small inputs of a left-deep chain of products towards its bottom. The
right inputs wait in a list on the way down, the outermost first. At the deepest
product the left input is traded for the smallest waiting plan that is smaller;
then, at every product on the way up, the right input is. A trade leaves the
plan given up waiting in the place of the plan received.

A selection on a column of a traded plan may no longer be in scope where it
stood. It is detached and put back above the chain, below a projection at the
root if there is one.
-/

namespace QueryPlan.ReorderProducts

open Planner

/-- The first place of the least count below a bound. -/
def leastBelow (bound : Count) : List Count → Option Nat
  | [] => none
  | n :: ns =>
      if n < bound then some (((leastBelow n ns).map (· + 1)).getD 0)
      else (leastBelow bound ns).map (· + 1)

structure Trade where
  received : Plan
  waiting : List Plan

/-- Trades a plan for the smallest of those waiting, if that one is smaller. -/
def trade? (p : Plan) (waiting : List Plan) : Except Error (Option Trade) := do
  let bound := (← p.output).tuples
  let counts ← waiting.mapM fun q => return (← q.output).tuples
  return (leastBelow bound counts).bind fun i =>
    waiting[i]?.map fun q => ⟨q, waiting.set i p⟩

/-- What a walk along the chain carries: the right inputs not yet placed, whether
the deepest product is still ahead, the columns of traded plans, and the
predicates of detached selections. -/
structure Chain where
  waiting : List Plan
  deepestAhead : Bool
  moved : List Column
  detached : List Predicate

namespace Chain

def start : Chain :=
  ⟨[], true, [], []⟩

def mark (c : Chain) (p : Plan) : Except Error Chain := do
  return { c with moved := c.moved ++ (← p.output).columns }

def exchange (c : Chain) (p : Plan) (event : Operator → Operator → Event) :
    Planner (Plan × Chain) := do
  match ← trade? p c.waiting with
  | none => return (p, c)
  | some t =>
      report (event p.operator t.received.operator)
      let c ← mark { c with waiting := t.waiting } t.received
      return (t.received, ← c.mark p)

end Chain

def place (left right : Plan) (c : Chain) : Planner (Plan × Chain) := do
  let outer := { c with waiting := c.waiting.dropLast, deepestAhead := false }
  let own := c.waiting.getLastD right
  let (left, outer) ← if c.deepestAhead then outer.exchange left .swappedLeft
    else pure (left, outer)
  let (right, outer) ← outer.exchange own .swappedRight
  return (← addNode .product [left, right], outer)

/-- The plan with its chain of products in order, and what the chain leaves behind. -/
def reorder : Plan → Chain → Planner (Plan × Chain)
  | p@⟨.product, [], _, _⟩, _ | p@⟨.product, [_], _, _⟩, _ => throw (p.noInput 1)
  | ⟨.product, l :: r :: _, _, _⟩, c => do
      let (l, c) ← reorder l { c with waiting := c.waiting ++ [r] }
      place l r c
  | p@⟨.select _, [], _, _⟩, _ | p@⟨.project _, [], _, _⟩, _ => throw (p.noInput 0)
  | ⟨.select predicate, q :: _, _, _⟩, c => do
      let (q, c) ← reorder q c
      if predicate.columns.any (· ∈ c.moved) then
        report (.detached predicate)
        return (q, { c with detached := c.detached ++ [predicate] })
      else return (← addNode (.select predicate) [q], c)
  | ⟨.project cs, q :: _, _, _⟩, c => do
      let (q, c) ← reorder q c
      return (← addNode (.project cs) [q], c)
  | p@⟨.scan _, _, _, _⟩, c | p@⟨.join _, _, _, _⟩, c => return (p, c)

def restore (p : Plan) (detached : List Predicate) : Planner Plan := do
  match detached, p with
  | [], p => return p
  | predicates, p@⟨.project cs, _, _, _⟩ =>
      addNode (.project cs) [← stackSelections (← p.input 0) predicates]
  | predicates, p => stackSelections p predicates

def run (p : Plan) : Planner Plan := do
  let (p, c) ← reorder p .start
  restore p c.detached

end QueryPlan.ReorderProducts
