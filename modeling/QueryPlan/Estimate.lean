import QueryPlan.Plan.Basic

/-!
Expected sizes of outputs. Values are taken to be spread evenly: a comparison
with a constant keeps one distinct value's share of the tuples, an equation of
two columns the share of the column with more values, and the compared columns
are left with the lesser number of values.
-/

namespace QueryPlan

namespace Statistics

def select (s : Statistics) : Predicate → Except Error Statistics
  | .equalsValue c _ => do
      let n ← (← s.resolve c).divisor
      return ⟨s.tuples / n, s.withDistinct [c] 1⟩
  | .equalsColumn l r => do
      let a ← s.resolve l
      let b ← s.resolve r
      let m ← a.divisor
      let n ← b.divisor
      return ⟨s.tuples / max m n, s.withDistinct [l, r] (min m n)⟩

/-- The attributes listed, in the order they already have. -/
def project (s : Statistics) (cs : List Column) : Except Error Statistics := do
  cs.forM fun c => discard (s.resolve c)
  return ⟨s.tuples, s.attributes.filter fun a => a.column ∈ cs⟩

def product (s t : Statistics) : Statistics :=
  ⟨Count.times s.tuples t.tuples, s.attributes ++ t.attributes⟩

/-- The pairs that agree on two columns. The left side of the predicate is looked
for in the left input first. -/
def join (s t : Statistics) : Predicate → Except Error Statistics
  | .equalsColumn l r =>
      if l ∈ s then joinOn l r else joinOn r l
  | .equalsValue c v => .error (.malformed (.joinOnValue (.equalsValue c v)))
where
  joinOn (c d : Column) : Except Error Statistics := do
    let m ← (← s.resolve c).divisor
    let n ← (← t.resolve d).divisor
    return ⟨Count.times s.tuples t.tuples / max m n,
      s.withDistinct [c] (min m n) ++ t.withDistinct [d] (min m n)⟩

end Statistics

/-- The output of an operator on inputs whose statistics are known. -/
def Operator.estimate : Operator → List Statistics → Except Error Statistics
  | .scan r, [] => .ok r.statistics
  | .select p, [s] => s.select p
  | .project cs, [s] => s.project cs
  | .product, [s, t] => .ok (s.product t)
  | .join p, [s, t] => s.join t p
  | op, inputs => .error (.malformed (.wrongArity op inputs.length))

namespace Plan

def estimated (p : Plan) : Except Error Statistics := do
  p.operator.estimate (← p.inputs.mapM output)

mutual

/-- The plan with every estimate made anew from the bottom up. Numbers are kept. -/
def reestimate : Plan → Except Error Plan
  | ⟨op, ps, i, _⟩ => do
      let p : Plan := ⟨op, ← reestimateAll ps, i, none⟩
      return p.withEstimate (← p.estimated)

def reestimateAll : List Plan → Except Error (List Plan)
  | [] => return []
  | p :: ps => return (← reestimate p) :: (← reestimateAll ps)

end

end Plan
end QueryPlan
