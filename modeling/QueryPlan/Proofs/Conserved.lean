import QueryPlan.Proofs.Nodes
import Mathlib.Data.Sym.Sym2

/-!
What a change of a plan leaves as it is, whatever the plan means: the relations
scanned, the predicates up to the order of their sides, and the supply of numbers.
-/

namespace QueryPlan

namespace Predicate

/-- The predicate without the order of its sides. -/
def form : Predicate → (Column × String) ⊕ Sym2 Column
  | equalsValue c v => .inl (c, v)
  | equalsColumn l r => .inr s(l, r)

theorem form_eq_iff {p q : Predicate} : p.form = q.form ↔ p = q ∨ p = q.swapped := by
  cases p <;> cases q <;> simp [form, swapped]

theorem form_swapped (p : Predicate) : p.swapped.form = p.form :=
  form_eq_iff.mpr (.inr rfl)

def forms (ps : List Predicate) : Multiset ((Column × String) ⊕ Sym2 Column) :=
  (ps : Multiset Predicate).map form

@[simp] theorem forms_nil : forms [] = 0 :=
  rfl

@[simp] theorem forms_cons (p : Predicate) (ps : List Predicate) :
    forms (p :: ps) = {p.form} + forms ps :=
  rfl

@[simp] theorem forms_append (ps qs : List Predicate) :
    forms (ps ++ qs) = forms ps + forms qs := by
  simp [forms]

theorem mem_forms {ps : List Predicate} {a : (Column × String) ⊕ Sym2 Column} :
    a ∈ forms ps ↔ ∃ p ∈ ps, p.form = a := by
  simp [forms]

theorem forms_perm {ps qs : List Predicate} (h : ps.Perm qs) : forms ps = forms qs := by
  rw [forms, Multiset.coe_eq_coe.mpr h, forms]

end Predicate

open Planner

namespace Plan

/-- The plan has been estimated again over the same relations. -/
structure Renewed (n : Nat) (p : Plan) (m : Nat) (q : Plan) : Prop where
  le : n ≤ m
  known : ∃ s, q.Estimated s
  scans : q.scans.Perm p.scans

/-- No predicate is lost or doubled, and numbers are old or have been given out since. -/
structure Conserved (n : Nat) (p : Plan) (m : Nat) (q : Plan) : Prop where
  forms : Predicate.forms q.predicates = Predicate.forms p.predicates
  ids : (q.ids : Multiset NodeId) ≤ p.ids + numbers n m

/-- The plan has the same columns in sight, and returns the same rows. -/
structure Faithful (db : Database) (p q : Plan) : Prop where
  columns : ∀ c, c ∈ q.columns ↔ c ∈ p.columns
  rows : (q.rows db).Perm (p.rows db)

variable {n m k : Nat} {p q r : Plan} {db : Database}

theorem Renewed.refl {s : Statistics} (n : Nat) (hp : p.Estimated s) : Renewed n p n p :=
  ⟨Nat.le_refl n, ⟨s, hp⟩, .refl _⟩

theorem Renewed.trans (h : Renewed n p m q) (h' : Renewed m q k r) : Renewed n p k r :=
  ⟨h.le.trans h'.le, h'.known, h'.scans.trans h.scans⟩

theorem Conserved.refl (n : Nat) (p : Plan) : Conserved n p n p :=
  ⟨rfl, Multiset.le_add_right _ _⟩

theorem Conserved.trans (h : Conserved n p m q) (h' : Conserved m q k r) (hn : n ≤ m)
    (hm : m ≤ k) : Conserved n p k r :=
  ⟨h'.forms.trans h.forms, h'.ids.trans (ids_le_of_add h.ids hn hm)⟩

theorem Faithful.refl (db : Database) (p : Plan) : Faithful db p p :=
  ⟨fun _ => .rfl, .refl _⟩

theorem Faithful.trans (h : Faithful db p q) (h' : Faithful db q r) : Faithful db p r :=
  ⟨fun c => (h'.columns c).trans (h.columns c), h'.rows.trans h.rows⟩

end Plan
end QueryPlan
