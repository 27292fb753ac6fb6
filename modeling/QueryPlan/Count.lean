/-!
Counts of tuples and of distinct values are 64-bit numbers. A number of pairs
that does not fit is held at the largest count, so an estimate never wraps.
-/

namespace QueryPlan

abbrev Count := UInt64

namespace Count

def limit : Nat := UInt64.size - 1

/-- The number of pairs, held at the limit. -/
def times (a b : Count) : Count :=
  UInt64.ofNat (min (a.toNat * b.toNat) limit)

theorem toNat_times (a b : Count) :
    (times a b).toNat = min (a.toNat * b.toNat) limit := by
  have h : min (a.toNat * b.toNat) limit < UInt64.size :=
    Nat.lt_of_le_of_lt (Nat.min_le_right _ _) (by decide)
  rw [times, UInt64.toNat_ofNat_of_lt' h]

theorem times_comm (a b : Count) : times a b = times b a := by
  rw [times, times, Nat.mul_comm]

def text (n : Count) : String :=
  Nat.repr n.toNat

end Count
end QueryPlan
