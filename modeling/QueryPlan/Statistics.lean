import QueryPlan.Count

/-!
Columns, and what is known about the tuples of a relation: how many there are
and how many distinct values each of its columns holds. A column is a name;
attributes keep their order, and a repeated name means its first attribute.
-/

namespace QueryPlan

structure Column where
  name : String
  deriving DecidableEq, Repr

/-- A column with the number of its distinct values. -/
structure Attribute where
  column : Column
  distinct : Count
  deriving DecidableEq, Repr

def Attribute.text (a : Attribute) : String :=
  a.column.name ++ ":" ++ Count.text a.distinct

structure Statistics where
  tuples : Count
  attributes : List Attribute
  deriving DecidableEq, Repr

namespace Statistics

def columns (s : Statistics) : List Column :=
  s.attributes.map Attribute.column

/-- A column belongs to a relation when some attribute has its name. -/
instance : Membership Column Statistics :=
  ⟨fun s c => c ∈ s.columns⟩

instance (c : Column) (s : Statistics) : Decidable (c ∈ s) :=
  inferInstanceAs (Decidable (c ∈ s.columns))

theorem mem_def (c : Column) (s : Statistics) : c ∈ s ↔ c ∈ s.columns :=
  Iff.rfl

def attribute? (s : Statistics) (c : Column) : Option Attribute :=
  s.attributes.find? fun a => a.column = c

theorem isSome_attribute? (s : Statistics) (c : Column) :
    (s.attribute? c).isSome ↔ c ∈ s := by
  simp [attribute?, mem_def, columns, List.find?_isSome]

theorem column_of_attribute? {s : Statistics} {c : Column} {a : Attribute}
    (h : s.attribute? c = some a) : a.column = c := by
  simpa using List.find?_some h

/-- The attributes, with every one of the given columns set to `n` distinct values. -/
def withDistinct (s : Statistics) (cs : List Column) (n : Count) : List Attribute :=
  s.attributes.map fun a => if a.column ∈ cs then { a with distinct := n } else a

theorem columns_withDistinct (s : Statistics) (cs : List Column) (n : Count) :
    (s.withDistinct cs n).map Attribute.column = s.columns := by
  simp only [withDistinct, columns, List.map_map]
  congr 1
  funext a
  simp only [Function.comp_apply]
  split <;> rfl

end Statistics
end QueryPlan
