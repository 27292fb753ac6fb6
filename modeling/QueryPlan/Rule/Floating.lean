import QueryPlan.Error

/-!
Predicates taken off their selections until a place is found for them. An entry
remembers the number of the selection it came from, so two selections with equal
predicates stay two entries. Entries keep the order in which they were added.
-/

namespace QueryPlan

/-- A predicate and the selection it came from. -/
structure Floating.Entry where
  origin : NodeId
  predicate : Predicate
  deriving DecidableEq, Repr

abbrev Floating := List Floating.Entry

namespace Floating

def add (floating : Floating) (origin : NodeId) (predicate : Predicate) : Floating :=
  floating ++ [⟨origin, predicate⟩]

/-- What is left without the first entry of that origin, if there is one. -/
def remove? : Floating → NodeId → Option Floating
  | [], _ => none
  | e :: floating, h => if e.origin = h then some floating else (remove? floating h).map (e :: ·)

def taken (floating : Floating) (test : Predicate → Bool) : List Predicate :=
  (floating.filter fun e => test e.predicate).map Entry.predicate

def untaken (floating : Floating) (test : Predicate → Bool) : Floating :=
  floating.filter fun e => !test e.predicate

theorem remove?_eq_none_iff (floating : Floating) (h : NodeId) :
    floating.remove? h = none ↔ ∀ e ∈ floating, e.origin ≠ h := by
  induction floating with
  | nil => simp [remove?]
  | cons e floating ih =>
      by_cases he : e.origin = h
      · simp [remove?, he]
      · simp [remove?, he, ih]

end Floating
end QueryPlan
