import QueryPlan.Error

/-!
Look-ups that must succeed: a column of a relation and a relation of a
catalogue. What is missing becomes the error.
-/

namespace QueryPlan

def Statistics.resolve (s : Statistics) (c : Column) : Except Error Attribute :=
  match s.attribute? c with
  | some a => .ok a
  | none => .error (.unknownColumn c s.columns)

def Catalogue.resolve (c : Catalogue) (name : String) : Except Error BaseRelation :=
  match c.relation? name with
  | some r => .ok r
  | none => .error (.unknownRelation name)

/-- The number of distinct values as the divisor of a selectivity. -/
def Attribute.divisor (a : Attribute) : Except Error Count :=
  if a.distinct = 0 then .error (.noDistinctValues a.column) else .ok a.distinct

namespace Statistics

theorem resolve_ok_iff {s : Statistics} {c : Column} :
    (∃ a, s.resolve c = .ok a) ↔ c ∈ s := by
  rw [← isSome_attribute?, resolve]
  cases s.attribute? c <;> simp

end Statistics
end QueryPlan
