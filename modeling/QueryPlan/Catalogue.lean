import QueryPlan.Statistics

/-!
Base relations by name. A catalogue holds one relation per name: registering
a relation replaces the one that had its name.
-/

namespace QueryPlan

/-- A stored relation: its name and the statistics of its tuples. -/
structure BaseRelation where
  name : String
  statistics : Statistics
  deriving DecidableEq, Repr

structure Catalogue where
  relations : List BaseRelation
  names_nodup : (relations.map BaseRelation.name).Nodup

namespace Catalogue

def empty : Catalogue :=
  ⟨[], List.nodup_nil⟩

def size (c : Catalogue) : Nat :=
  c.relations.length

def relation? (c : Catalogue) (name : String) : Option BaseRelation :=
  c.relations.find? fun r => r.name = name

instance : Membership String Catalogue :=
  ⟨fun c name => (c.relation? name).isSome⟩

instance (name : String) (c : Catalogue) : Decidable (name ∈ c) :=
  inferInstanceAs (Decidable ((c.relation? name).isSome = true))

def register (c : Catalogue) (r : BaseRelation) : Catalogue where
  relations := r :: c.relations.filter fun s => s.name ≠ r.name
  names_nodup := by
    refine List.nodup_cons.mpr ⟨by simp [List.mem_filter], ?_⟩
    exact c.names_nodup.sublist (List.filter_sublist.map _)

/-- Registers the relations one after the other, so the last of a name stays. -/
def ofList (rs : List BaseRelation) : Catalogue :=
  rs.foldl register empty

theorem relation?_register (c : Catalogue) (r : BaseRelation) (name : String) :
    (c.register r).relation? name = if name = r.name then some r else c.relation? name := by
  by_cases h : name = r.name
  · subst h
    simp [relation?, register]
  · have hr : r.name ≠ name := fun e => h e.symm
    simp only [relation?, register, List.find?_cons, hr, decide_false, h, if_false,
      List.find?_filter]
    congr 1
    funext s
    by_cases hs : s.name = name
    · simp [hs, h]
    · simp [hs]

theorem name_of_relation? {c : Catalogue} {name : String} {r : BaseRelation}
    (h : c.relation? name = some r) : r.name = name := by
  simpa using List.find?_some h

end Catalogue
end QueryPlan
