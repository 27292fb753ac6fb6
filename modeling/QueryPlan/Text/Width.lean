import QueryPlan.Text.Joining

/-!
How many columns of a terminal a line takes. A sequence that sets a colour starts
with escape and bracket and ends with the letter m. Of such a sequence only the
escape counts: every other character that takes columns is taken off as one.
-/

namespace QueryPlan.Text

inductive Colouring where
  | outside
  | escape
  | inside

def isControl (c : Char) : Bool :=
  c.toNat < 0x20 || 0x7f ≤ c.toNat && c.toNat < 0xa0

/-- One for a character that takes any columns, however many they are. -/
def shownAlone (c : Char) : Nat :=
  if isControl c || charWidth c = 0 then 0 else 1

/-- How many characters of a line are hidden in colours. A colour that does not end
hides all that follows. -/
def hiddenAfter : Colouring → List Char → Nat
  | _, [] => 0
  | .outside, c :: cs => hiddenAfter (if c = '\x1b' then .escape else .outside) cs
  | .escape, c :: cs =>
      if c = '[' then 1 + hiddenAfter .inside cs else hiddenAfter .outside cs
  | .inside, c :: cs =>
      shownAlone c + hiddenAfter (if c = 'm' then .outside else .inside) cs

def width (s : String) : Nat :=
  joinedWidth s.toList - hiddenAfter .outside s.toList

end QueryPlan.Text
