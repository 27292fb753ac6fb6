import QueryPlan.Plan.Outline
import QueryPlan.Rule.Basic

/-!
What is reported while a plan is optimised. An event keeps what happened; its
level and its wording follow from that.
-/

namespace QueryPlan

inductive Event where
  | skipped (rule : Rule)
  | applying (rule : Rule)
  | applied (rule : Rule) (plan : Plan)
  | placedAboveScan (predicate : Predicate) (relation : String)
  | placedAbove (predicate : Predicate) (operator : Operator)
  | kept (predicate : Predicate)
  | swappedLeft (displaced smaller : Operator)
  | swappedRight (displaced smaller : Operator)
  | detached (predicate : Predicate)
  | severalCandidates (count : Nat) (product : NodeId)
  | candidate (predicate : Predicate) (tuples : Count)
  | fused (predicate : Predicate)
  | projected (project below : Operator)

namespace Event

def level : Event → String
  | applying _ | applied _ _ => "DEBUG"
  | severalCandidates _ _ => "WARN"
  | _ => "TRACE"

def message : Event → String
  | skipped r => "Skipped disabled rule " ++ r.label
  | applying r => "Applying rule " ++ r.label
  | applied r p => "Plan after applying rule " ++ r.label ++ " is\n" ++ p.outline
  | placedAboveScan p r => "Placing " ++ p.text ++ " above scan of " ++ r
  | placedAbove p op => "Placing " ++ p.text ++ " above " ++ op.text
  | kept p => "Keeping " ++ p.text ++ " in place"
  | swappedLeft a b => "Swapped left input " ++ a.text ++ " with smaller " ++ b.text
  | swappedRight a b => "Swapped right input " ++ a.text ++ " with smaller " ++ b.text
  | detached p => "Detaching " ++ p.text
  | severalCandidates n i =>
      Nat.repr n ++ " join predicates apply to product (id " ++ Nat.repr i.toNat ++ ")"
  | candidate p n => "Candidate " ++ p.text ++ " yields " ++ Count.text n ++ " tuples"
  | fused p => "Fusing product with " ++ p.text
  | projected op below => "Placing " ++ op.text ++ " above " ++ below.text

def line (e : Event) : String :=
  e.level ++ " " ++ e.message

end Event
end QueryPlan
