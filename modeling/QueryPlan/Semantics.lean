import QueryPlan.Plan.Shape

/-!
The rows a plan returns. A row gives values to some columns, so the order of
columns is of no account; a result is a list of rows, to be compared up to
permutation. Projection keeps duplicates, and a join is a product followed by a
selection.
-/

namespace QueryPlan

abbrev Row := Column → Option String

namespace Row

def restrict (cs : List Column) (r : Row) : Row :=
  fun c => if c ∈ cs then r c else none

/-- Two rows side by side; of a column that both have, the first is seen. -/
def merge (a b : Row) : Row :=
  fun c => (a c).or (b c)

/-- The compared columns have values, and these are equal. -/
def Satisfies (r : Row) : Predicate → Prop
  | .equalsValue c v => r c = some v
  | .equalsColumn a b => (r a).isSome ∧ r a = r b

instance (r : Row) (p : Predicate) : Decidable (r.Satisfies p) :=
  match p with
  | .equalsValue c v => inferInstanceAs (Decidable (r c = some v))
  | .equalsColumn a b => inferInstanceAs (Decidable ((r a).isSome ∧ r a = r b))

theorem satisfies_swapped (r : Row) (p : Predicate) :
    r.Satisfies p.swapped ↔ r.Satisfies p := by
  cases p with
  | equalsValue c v => rfl
  | equalsColumn a b =>
      constructor
      all_goals
        rintro ⟨hs, he⟩
        exact ⟨he ▸ hs, he.symm⟩

theorem restrict_restrict (cs ds : List Column) (r : Row) :
    (r.restrict cs).restrict ds = r.restrict (ds.filter (· ∈ cs)) := by
  funext c
  by_cases hc : c ∈ cs <;> by_cases hd : c ∈ ds <;> simp [restrict, hc, hd]

theorem satisfies_congr {a b : Row} {p : Predicate} (h : ∀ c ∈ p.columns, a c = b c) :
    a.Satisfies p ↔ b.Satisfies p := by
  cases p with
  | equalsValue c v =>
      have hc := h c (by simp [Predicate.columns])
      simp [Satisfies, hc]
  | equalsColumn l r =>
      have hl := h l (by simp [Predicate.columns])
      have hr := h r (by simp [Predicate.columns])
      simp [Satisfies, hl, hr]

end Row

abbrev Database := String → List Row

/-- The stored rows of a relation have exactly its columns. -/
def Database.Fits (db : Database) (r : BaseRelation) : Prop :=
  ∀ row ∈ db r.name, ∀ c, (row c).isSome ↔ c ∈ r.statistics

def pairs (xs ys : List Row) : List Row :=
  xs.flatMap fun a => ys.map fun b => a.merge b

/-- A plan with a wrong number of inputs returns nothing. -/
def Plan.rows (db : Database) : Plan → List Row
  | ⟨.scan r, [], _, _⟩ => db r.name
  | ⟨.select p, [q], _, _⟩ => (rows db q).filter fun row => row.Satisfies p
  | ⟨.project cs, [q], _, _⟩ => (rows db q).map (Row.restrict cs)
  | ⟨.product, [l, r], _, _⟩ => pairs (rows db l) (rows db r)
  | ⟨.join p, [l, r], _, _⟩ => (pairs (rows db l) (rows db r)).filter fun row => row.Satisfies p
  | ⟨_, _, _, _⟩ => []

end QueryPlan
