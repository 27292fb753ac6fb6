import QueryPlan.Estimate
import QueryPlan.Planner.Event

/-!
Computations that make new plans. Each draws fresh node numbers and reports
events, and both stay when it fails: a node that could not be estimated has
used up its number.
-/

namespace QueryPlan

/-- A number counts the numbers up to it. -/
instance : Coe NodeId Nat :=
  ⟨UInt32.toNat⟩

/-- How many numbers have been given out, and the events so far. -/
structure Progress where
  issued : Nat
  events : Array Event

namespace Progress

def start : Progress :=
  ⟨0, #[]⟩

/-- The number given out last. Past the last 32-bit number they start again. -/
def lastId (s : Progress) : NodeId :=
  .ofNat s.issued

end Progress

abbrev Planner := ExceptT Error (StateM Progress)

namespace Planner

def exec {α : Type} (m : Planner α) (s : Progress) : Except Error α × Progress :=
  StateT.run (ExceptT.run m) s

def freshId : Planner NodeId :=
  modifyGet fun s => (s.lastId + 1, { s with issued := s.issued + 1 })

def report (e : Event) : Planner Unit :=
  modify fun s => { s with events := s.events.push e }

/-- A new node above finished inputs, numbered first and then estimated. -/
def addNode (op : Operator) (inputs : List Plan) : Planner Plan := do
  let p : Plan := ⟨op, inputs, ← freshId, none⟩
  return p.withEstimate (← p.estimated)

/-- Selections stacked above a plan, the first predicate lowest. -/
def stackSelections (p : Plan) (predicates : List Predicate) : Planner Plan :=
  predicates.foldlM (fun q predicate => addNode (.select predicate) [q]) p

end Planner
end QueryPlan
