import QueryPlan.Catalogue
import QueryPlan.Document.Basic

/-!
Catalogues, relations and attributes read from documents. A relation or an
attribute is a record, or a list of its parts in order; a relation with a name
is always a record. The parts of a record are read in the order of their names
and missing ones are reported last.
-/

namespace QueryPlan

inductive Expected where
  | baseRelation
  | statistics
  | columnAttribute
  | sequence
  | name
  | count

/-- Why a document is not what its place asks for. -/
inductive DecodeError where
  | wrongType (found : Document) (expected : Expected)
  | negative (value : Int)
  | tooShort (length : Nat) (expected : Expected)
  | tooLong (length : Nat)
  | notAPair (length : Nat)
  | missing (name : String)

def Expected.text : Expected → String
  | baseRelation => "struct NamedRelation"
  | statistics => "struct Relation"
  | columnAttribute => "struct Attribute"
  | sequence => "a sequence"
  | name => "a string"
  | count => "u64"

def DecodeError.message : DecodeError → String
  | wrongType d e => "invalid type: " ++ d.describe ++ ", expected " ++ e.text
  | negative n => "invalid value: integer `" ++ toString n ++ "`, expected u64"
  | tooShort n e =>
      "invalid length " ++ Nat.repr n ++ ", expected " ++ e.text ++ " with 2 elements"
  | tooLong n => "invalid length " ++ Nat.repr n ++ ", expected fewer elements in array"
  | notAPair n => "invalid length " ++ Nat.repr n ++ ", expected 2 elements in sequence"
  | missing name => "missing field `" ++ name ++ "`"

namespace Document

def toCount : Document → Except DecodeError Count
  | .integer n => if n < 0 then .error (.negative n) else .ok (UInt64.ofNat n.toNat)
  | d => .error (.wrongType d .count)

def toName : Document → Except DecodeError String
  | .text s => .ok s
  | d => .error (.wrongType d .name)

def required {α : Type} (name : String) : Option α → Except DecodeError α
  | some a => .ok a
  | none => .error (.missing name)

/-- An attribute, and the complaint about a list with more than its two parts. -/
def toAttribute (excess : Nat → DecodeError) : Document → Except DecodeError Attribute
  | .record fields => do
      let name ← (field? fields "name").mapM toName
      let n ← (field? fields "value_count").mapM toCount
      return ⟨⟨← required "name" name⟩, ← required "value_count" n⟩
  | .list [] => .error (.tooShort 0 .columnAttribute)
  | .list [d] => do
      discard d.toName
      throw (.tooShort 1 .columnAttribute)
  | .list (d :: e :: rest) => do
      let name ← d.toName
      let n ← e.toCount
      if rest.isEmpty then return ⟨⟨name⟩, n⟩ else throw (excess (rest.length + 2))
  | d => .error (.wrongType d .columnAttribute)

def toAttributes (excess : Nat → DecodeError) : Document → Except DecodeError (List Attribute)
  | .list ds => ds.mapM (toAttribute excess)
  | d => .error (.wrongType d .sequence)

def recordStatistics (excess : Nat → DecodeError) (fields : List (String × Document)) :
    Except DecodeError Statistics := do
  let attributes ← (field? fields "attributes").mapM (toAttributes excess)
  let n ← (field? fields "tuple_count").mapM toCount
  return ⟨← required "tuple_count" n, attributes.getD []⟩

def toStatistics : Document → Except DecodeError Statistics
  | .record fields => recordStatistics .tooLong fields
  | .list [] => .error (.tooShort 0 .statistics)
  | .list [d] => return ⟨← d.toCount, []⟩
  | .list (d :: e :: rest) => do
      let n ← d.toCount
      let attributes ← e.toAttributes .tooLong
      if rest.isEmpty then return ⟨n, attributes⟩ else throw (.tooLong (rest.length + 2))
  | d => .error (.wrongType d .statistics)

/-- The name is read before anything else. -/
def toBaseRelation : Document → Except DecodeError BaseRelation
  | .record fields => do
      let name ← (field? fields "name").mapM toName
      return ⟨← required "name" name, ← recordStatistics .notAPair fields⟩
  | d => .error (.wrongType d .baseRelation)

def toCatalogue : Document → Except DecodeError Catalogue
  | .list ds => return Catalogue.ofList (← ds.mapM toBaseRelation)
  | d => .error (.wrongType d .sequence)

end Document
end QueryPlan
