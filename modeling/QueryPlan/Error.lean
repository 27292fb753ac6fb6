import QueryPlan.Operator

/-!
Why a plan cannot be estimated or optimised. A cause keeps the operator, column
or predicate concerned; `Error.message` is the only place that words it.
-/

namespace QueryPlan

/-- Node numbers wrap after the last 32-bit number. -/
abbrev NodeId := UInt32

/-- Faults in the shape of a plan. -/
inductive Malformation where
  | wrongArity (operator : Operator) (inputs : Nat)
  | noInput (operator : Operator) (id : NodeId) (index : Nat)
  | notEstimated (operator : Operator) (id : NodeId)
  | joinOnValue (predicate : Predicate)
  | joinInCanonicalPlan (predicate : Predicate)
  | unplacedSelections (predicates : List Predicate)
  deriving DecidableEq, Repr

inductive Error where
  | unknownColumn (column : Column) (available : List Column)
  | unknownRelation (name : String)
  | malformed (fault : Malformation)
  | noDistinctValues (column : Column)
  deriving DecidableEq, Repr

def Malformation.message : Malformation → String
  | wrongArity op n =>
      op.text ++ " expects " ++ Nat.repr op.arity ++ " inputs, got " ++ Nat.repr n
  | noInput op id i =>
      op.text ++ " (id " ++ Nat.repr id.toNat ++ ") has no input " ++ Nat.repr i
  | notEstimated op id =>
      op.text ++ " (id " ++ Nat.repr id.toNat ++ ") has not been estimated"
  | joinOnValue p => "join predicate " ++ p.text ++ " is not an equi join predicate"
  | joinInCanonicalPlan p => "canonical plan contains join on " ++ p.text
  | unplacedSelections ps =>
      "selections left unplaced: " ++ ", ".intercalate (ps.map Predicate.text)

def Error.message : Error → String
  | unknownColumn c available =>
      "Attribute " ++ c.name ++ " not found in [" ++
        ", ".intercalate (available.map Column.name) ++ "]"
  | unknownRelation name => "Relation " ++ Text.quote name ++ " not exists in catalogue"
  | malformed fault => "Malformed plan: " ++ fault.message
  | noDistinctValues c =>
      "Attribute " ++ c.name ++ " has no distinct values, can't estimate selectivity"

end QueryPlan
