/-!
Sets of characters, given as runs of code points with both ends included.
-/

namespace QueryPlan.Text

structure CharSet where
  runs : List (Nat × Nat)

namespace CharSet

def contains (s : CharSet) (c : Char) : Bool :=
  s.runs.any fun r => r.1 ≤ c.toNat && c.toNat ≤ r.2

theorem contains_iff (s : CharSet) (c : Char) :
    s.contains c ↔ ∃ r ∈ s.runs, r.1 ≤ c.toNat ∧ c.toNat ≤ r.2 := by
  simp [contains]

end CharSet
end QueryPlan.Text
