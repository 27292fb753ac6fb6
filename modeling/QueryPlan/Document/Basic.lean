import QueryPlan.Decimal.Numeral
import QueryPlan.Decimal.Shortest
import QueryPlan.Text.Quoted

/-!
Documents: values as a data format holds them, and how messages describe them.
A number is an integer or a fraction, according to how it is written.
-/

namespace QueryPlan

inductive Document where
  | null
  | boolean (value : Bool)
  | integer (value : Int)
  | fraction (value : Float)
  | text (value : String)
  | list (items : List Document)
  | record (fields : List (String × Document))

namespace Document

def ofNumeral? (x : Decimal.Numeral) : Option Document :=
  match x.integer? with
  | some n => some (.integer n)
  | none => x.fraction?.map .fraction

def field? (fields : List (String × Document)) (name : String) : Option Document :=
  fields.lookup name

/-- The least digits that read back, with a point: positional from 0.00001 up to 16
digits before the point, otherwise with an exponent and its sign. -/
def fractionText (x : Float) : String :=
  let bits := x.toBits
  let sign := if bits.toNat < UInt64.size / 2 then "" else "-"
  let b := Decimal.Binary.ofBits bits
  if b.m = 0 then sign ++ "0.0"
  else
    let (ds, e) := b.shortest.text
    let point := ds.length + e
    let zeros (n : Int) := List.replicate n.toNat '0'
    sign ++ String.ofList (
      if 0 < point && point ≤ 16 then
        if 0 ≤ e then ds ++ zeros e ++ ['.', '0']
        else ds.take point.toNat ++ '.' :: ds.drop point.toNat
      else if -5 < point && point ≤ 0 then '0' :: '.' :: zeros (-point) ++ ds
      else
        let mantissa := if ds.length = 1 then ds else ds.take 1 ++ '.' :: ds.drop 1
        let power := (if point > 0 then "+" else "") ++ toString (point - 1)
        mantissa ++ 'e' :: power.toList)

/-- What a message calls a value that was not expected. -/
def describe : Document → String
  | null => "null"
  | boolean b => "boolean `" ++ (if b then "true" else "false") ++ "`"
  | integer n => "integer `" ++ toString n ++ "`"
  | fraction x => "floating point `" ++ fractionText x ++ "`"
  | text s => "string " ++ Text.quote s
  | list _ => "sequence"
  | record _ => "map"

end Document
end QueryPlan
