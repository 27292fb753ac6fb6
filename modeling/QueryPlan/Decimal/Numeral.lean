/-!
Numerals: numbers as they are written, in decimal digits. A whole number that
fits 64 bits, with or without a sign, is an integer. Any other is a fraction: as
many digits as fit 64 bits are kept, and the number they make is scaled by a
power of ten, with a rounding in every step. So a fraction may differ from the
number as written in its last place.
-/

namespace QueryPlan.Decimal

/-- The digits of a number before the point and after it, and the exponent if it
has one. -/
structure Numeral where
  negative : Bool
  whole : List Nat
  decimals : List Nat
  exponent : Option Int

/-- Appends digits to a number as long as it fits 64 bits, and returns how many are
left over. -/
def appendDigits (n : Nat) : List Nat → Nat × Nat
  | [] => (n, 0)
  | d :: ds => if 10 * n + d < UInt64.size then appendDigits (10 * n + d) ds else (n, ds.length + 1)

def powerOfTen (e : Nat) : Float :=
  Float.ofScientific 1 false e

/-- Divides by a power of ten, at most by 10^308 at once. -/
def scaleDown (x : Float) (e : Nat) : Float :=
  if e ≤ 308 then x / powerOfTen e
  else if x == 0.0 then x
  else scaleDown (x / powerOfTen 308) (e - 308)
termination_by e

def scaleUp? (x : Float) (e : Nat) : Option Float :=
  if e ≤ 308 then
    let y := x * powerOfTen e
    if y.isInf then none else some y
  else if x == 0.0 then some x
  else none

namespace Numeral

/-- A zero with a minus sign is not an integer. -/
def integer? (x : Numeral) : Option Int :=
  let (n, dropped) := appendDigits 0 x.whole
  if 0 < dropped || !x.decimals.isEmpty || x.exponent.isSome then none
  else if !x.negative then some n
  else if 0 < n && n ≤ UInt64.size / 2 then some (-n)
  else none

/-- The digits that are kept, and the power of ten that they are to be scaled by.
Digits left over before the point count as powers of ten, those after it do not
count. -/
def significand (x : Numeral) : Nat × Int :=
  let (n, dropped) := appendDigits 0 x.whole
  let (n, ignored) := appendDigits n x.decimals
  (n, dropped + ignored - x.decimals.length + x.exponent.getD 0)

def fraction? (x : Numeral) : Option Float :=
  let (n, e) := x.significand
  let f := (UInt64.ofNat n).toFloat
  let y := if 0 ≤ e then scaleUp? f e.toNat else some (scaleDown f (-e).toNat)
  y.map fun y => if x.negative then -y else y

end Numeral
end QueryPlan.Decimal
