/-!
The shortest decimal that reads back as a given binary number. The number is
m * 2^q in exact arithmetic; the reals that round to it form an interval, whose
ends belong to it when m is even. For one digit, two digits and so on the two
neighbours of the number on that decimal grid are tried, and the nearer wins; of
two equally near ones, the even one.
-/

namespace QueryPlan.Decimal

/-- The value m * 2^q. At the lower edge of a binade the gap below is half as wide. -/
structure Binary where
  m : Nat
  q : Int
  edge : Bool

def Binary.ofBits (bits : UInt64) : Binary :=
  let unit := Nat.pow 2 52
  let fraction := bits.toNat % unit
  let exponent : Nat := bits.toNat / unit % Nat.pow 2 11
  if exponent = 0 then ⟨fraction, -1074, false⟩
  else ⟨unit + fraction, exponent - 1075, fraction = 0 && exponent > 1⟩

/-- The value `digits * 10^exponent`. -/
structure Digits where
  digits : Nat
  exponent : Int

namespace Binary

/-- A decimal and a quarter of the binary unit on one scale: the first factor
multiplies the decimal's digits, the second counts in quarters of 2^q. -/
def scales (b : Binary) (p : Int) : Nat × Nat :=
  (Nat.pow 10 p.toNat * Nat.pow 2 (2 - b.q).toNat,
    Nat.pow 10 (-p).toNat * Nat.pow 2 (b.q - 2).toNat)

def holds (b : Binary) (d : Nat) (p : Int) : Bool :=
  let (s, t) := b.scales p
  let x := d * s
  let low := (4 * b.m - if b.edge then 1 else 2) * t
  let high := (4 * b.m + 2) * t
  if b.m % 2 = 0 then low ≤ x && x ≤ high else low < x && x < high

/-- The better of the number's two neighbours on the grid of 10^p, if one reads back. -/
def onGrid (b : Binary) (p : Int) : Option Digits :=
  let (s, t) := b.scales p
  let d := 4 * b.m * t / s
  let rest := 4 * b.m * t % s
  match b.holds d p, b.holds (d + 1) p with
  | true, true => some ⟨if 2 * rest < s || 2 * rest = s && d % 2 = 0 then d else d + 1, p⟩
  | true, false => some ⟨d, p⟩
  | false, true => some ⟨d + 1, p⟩
  | false, false => none

def leading (b : Binary) : Int :=
  let num := b.m * Nat.pow 2 b.q.toNat
  let den := Nat.pow 2 (-b.q).toNat
  if den ≤ num then (Nat.toDigits 10 (num / den)).length - 1
  else
    let k := (Nat.toDigits 10 (den / num)).length
    if den ≤ num * Nat.pow 10 (k - 1) then 1 - k else -k

def shortest (b : Binary) : Digits :=
  let first := b.leading
  ((List.range 17).findSome? fun (n : Nat) => b.onGrid (first - n)).getD ⟨b.m, 0⟩

end Binary

def Digits.text (d : Digits) : List Char × Int :=
  let cs := Nat.toDigits 10 d.digits
  let zeros := (cs.reverse.takeWhile (· == '0')).length
  (cs.take (cs.length - zeros), d.exponent + zeros)

end QueryPlan.Decimal
