import QueryPlan.Catalogue
import QueryPlan.Predicate

/-!
Relational operators. A scan carries the base relation it reads; the other
operators apply to the plans below them, as many as their arity says.
-/

namespace QueryPlan

inductive Operator where
  | scan (relation : BaseRelation)
  | select (predicate : Predicate)
  | project (columns : List Column)
  | product
  | join (predicate : Predicate)
  deriving DecidableEq, Repr

namespace Operator

def arity : Operator → Nat
  | scan _ => 0
  | select _ | project _ => 1
  | product | join _ => 2

def predicate? : Operator → Option Predicate
  | select p | join p => some p
  | scan _ | project _ | product => none

def relation? : Operator → Option BaseRelation
  | scan r => some r
  | select _ | project _ | product | join _ => none

def columns? : Operator → Option (List Column)
  | project cs => some cs
  | scan _ | select _ | product | join _ => none

def isJoin : Operator → Bool
  | join _ => true
  | scan _ | select _ | project _ | product => false

def kind : Operator → String
  | scan _ => "LogicalScan"
  | select _ => "LogicalSelect"
  | project _ => "LogicalProject"
  | product => "LogicalProduct"
  | join _ => "LogicalJoin"

/-- A named detail between braces, behind the operator's name. -/
private def detail (label value : String) : String :=
  " \x7b " ++ label ++ ": " ++ value ++ " \x7d"

def text (op : Operator) : String :=
  op.kind ++ match op with
    | scan r => detail "relation" (Text.quote r.name)
    | select p | join p => detail "predicate" p.text
    | project cs => detail "columns" ("[" ++ ", ".intercalate (cs.map Column.name) ++ "]")
    | product => ""

end Operator
end QueryPlan
