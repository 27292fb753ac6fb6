import QueryPlan.Text.Extender
import QueryPlan.Text.Unprintable

/-!
Quoted text: a string between double quotes, with quotes, backslashes and every
character that cannot be shown alone written as an escape. An extender is
escaped wherever it stands, since it would join the character before it.
-/

namespace QueryPlan.Text

/-- A code point in lower-case hexadecimal, between braces. -/
def hexEscape (c : Char) : List Char :=
  ['\\', 'u', '\x7b'] ++ Nat.toDigits 16 c.toNat ++ ['\x7d']

def escape (c : Char) : List Char :=
  match c with
  | '"' => ['\\', '"']
  | '\\' => ['\\', '\\']
  | '\n' => ['\\', 'n']
  | '\r' => ['\\', 'r']
  | '\t' => ['\\', 't']
  | '\x00' => ['\\', '0']
  | c => if extenders.contains c || isUnprintable c then hexEscape c else [c]

def quote (s : String) : String :=
  String.ofList ('"' :: (s.toList.flatMap escape ++ ['"']))

end QueryPlan.Text
