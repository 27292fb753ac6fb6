import QueryPlan.Statistics
import QueryPlan.Text.Quoted

/-!
Equality predicates of selections and joins. A predicate compares a column
with a constant, or two columns with each other.
-/

namespace QueryPlan

inductive Predicate where
  | equalsValue (column : Column) (value : String)
  | equalsColumn (left right : Column)
  deriving DecidableEq, Repr

namespace Predicate

def isEqualsValue : Predicate → Bool
  | equalsValue _ _ => true
  | equalsColumn _ _ => false

def left : Predicate → Column
  | equalsValue c _ => c
  | equalsColumn l _ => l

def right? : Predicate → Option Column
  | equalsValue _ _ => none
  | equalsColumn _ r => some r

def columns : Predicate → List Column
  | equalsValue c _ => [c]
  | equalsColumn l r => [l, r]

/-- Every compared column is a column of the relation. -/
def CoveredBy (p : Predicate) (s : Statistics) : Prop :=
  ∀ c ∈ p.columns, c ∈ s

instance (p : Predicate) (s : Statistics) : Decidable (p.CoveredBy s) :=
  inferInstanceAs (Decidable (∀ c ∈ p.columns, c ∈ s))

/-- The sides exchanged; a comparison with a constant has no other form. -/
def swapped : Predicate → Predicate
  | equalsValue c v => equalsValue c v
  | equalsColumn l r => equalsColumn r l

theorem swapped_swapped (p : Predicate) : p.swapped.swapped = p := by
  cases p <;> rfl

/-- The predicate equates a column of one relation with a column of the other. -/
def Links (p : Predicate) (a b : Statistics) : Prop :=
  match p with
  | equalsValue _ _ => False
  | equalsColumn l r => (l ∈ a ∧ r ∈ b) ∨ (r ∈ a ∧ l ∈ b)

instance (p : Predicate) (a b : Statistics) : Decidable (p.Links a b) :=
  match p with
  | equalsValue _ _ => inferInstanceAs (Decidable False)
  | equalsColumn l r => inferInstanceAs (Decidable ((l ∈ a ∧ r ∈ b) ∨ (r ∈ a ∧ l ∈ b)))

theorem links_swapped (p : Predicate) (a b : Statistics) :
    p.swapped.Links a b ↔ p.Links a b := by
  cases p with
  | equalsValue c v => rfl
  | equalsColumn l r => exact Or.comm

def text : Predicate → String
  | equalsValue c v => c.name ++ " = " ++ Text.quote v
  | equalsColumn l r => l.name ++ " = " ++ r.name

end Predicate
end QueryPlan
