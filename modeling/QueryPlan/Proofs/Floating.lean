import QueryPlan.Rule.Floating
import Mathlib.Data.List.Nodup
import Mathlib.Algebra.Order.Group.Multiset

/-!
Floating predicates while origins are told apart. As long as no two entries share
an origin, a selection finds its own entry again or none, and what has landed can
be read off the entries before and after.
-/

namespace QueryPlan.Floating

variable {f g h : Floating} {i : NodeId} {p : Predicate} {is : List NodeId}
  {test : Predicate → Bool}

def origins (f : Floating) : List NodeId :=
  f.map Entry.origin

def predicates (f : Floating) : List Predicate :=
  f.map Entry.predicate

theorem origins_add : (f.add i p).origins = f.origins ++ [i] := by
  simp [origins, add]

theorem predicates_nil : predicates [] = [] :=
  rfl

theorem predicates_add : (f.add i p).predicates = f.predicates ++ [p] := by
  simp [predicates, add]

theorem predicates_add_subset {ps : List Predicate} (h : f.predicates ⊆ ps) :
    (f.add i p).predicates ⊆ p :: ps := by
  rw [predicates_add]
  exact List.append_subset.mpr ⟨List.subset_cons_of_subset _ h, by simp⟩

theorem length_add : (f.add i p).length = f.length + 1 :=
  List.length_append

theorem untaken_sublist (f : Floating) (test : Predicate → Bool) : (f.untaken test).Sublist f :=
  List.filter_sublist

theorem untaken_origins_le (f : Floating) (test : Predicate → Bool) :
    ((f.untaken test).origins : Multiset NodeId) ≤ f.origins :=
  Multiset.coe_le.mpr ((untaken_sublist f test).map _).subperm

theorem coe_origins_add : ((f.add i p).origins : Multiset NodeId) = i ::ₘ ↑f.origins := by
  rw [origins_add, ← Multiset.coe_add, Multiset.coe_singleton, add_comm, Multiset.singleton_add]

/-- Every predicate is taken or left. -/
theorem taken_add_untaken (f : Floating) (test : Predicate → Bool) :
    (f.taken test : Multiset Predicate) + ((f.untaken test).predicates : Multiset Predicate) =
      f.predicates := by
  rw [taken, untaken, predicates, predicates, Multiset.coe_add, ← List.map_append,
    Multiset.coe_eq_coe]
  exact (List.filter_append_perm _ _).map _

theorem length_taken_add_untaken (f : Floating) (test : Predicate → Bool) :
    (f.taken test).length + (f.untaken test).length = f.length := by
  simpa [predicates] using congrArg Multiset.card (f.taken_add_untaken test)

theorem mem_taken {q : Predicate} : q ∈ f.taken test ↔ q ∈ f.predicates ∧ test q := by
  simp only [taken, predicates, List.mem_map, List.mem_filter]
  refine ⟨fun h => ?_, fun h => ?_⟩
  · obtain ⟨e, ⟨he, ht⟩, hq⟩ := h
    exact ⟨⟨e, he, hq⟩, hq ▸ ht⟩
  · obtain ⟨⟨e, he, hq⟩, ht⟩ := h
    exact ⟨e, ⟨he, hq ▸ ht⟩, hq⟩

theorem taken_sublist : (f.taken test).Sublist f.predicates :=
  List.filter_sublist.map _

theorem taken_congr {test' : Predicate → Bool} (h : ∀ q ∈ f.predicates, test q = test' q) :
    f.taken test = f.taken test' :=
  congrArg (List.map _) (List.filter_congr fun _ he => h _ (List.mem_map_of_mem he))

theorem taken_eq_nil (h : ∀ q ∈ f.predicates, ¬ test q) : f.taken test = [] := by
  apply List.eq_nil_iff_forall_not_mem.mpr
  intro q hq
  exact h q (mem_taken.mp hq).1 (mem_taken.mp hq).2

theorem untaken_eq_self (h : ∀ q ∈ f.predicates, ¬ test q) : f.untaken test = f := by
  apply List.filter_eq_self.mpr
  intro e he
  simpa using h e.predicate (List.mem_map_of_mem he)

theorem mem_untaken {e : Entry} : e ∈ f.untaken test ↔ e ∈ f ∧ ¬ test e.predicate := by
  simp [untaken]

theorem mem_predicates_untaken {q : Predicate} :
    q ∈ (f.untaken test).predicates ↔ q ∈ f.predicates ∧ ¬ test q := by
  simp only [predicates, List.mem_map, mem_untaken]
  refine ⟨fun h => ?_, fun h => ?_⟩
  · obtain ⟨e, ⟨he, ht⟩, rfl⟩ := h
    exact ⟨⟨e, he, rfl⟩, ht⟩
  · obtain ⟨⟨e, he, rfl⟩, ht⟩ := h
    exact ⟨e, ⟨he, ht⟩, rfl⟩

theorem untaken_add :
    (f.add i p).untaken test = if test p then f.untaken test else (f.untaken test).add i p := by
  by_cases ht : test p <;> simp [untaken, add, List.filter_append, ht]

theorem taken_add :
    (f.add i p).taken test = f.taken test ++ if test p then [p] else [] := by
  by_cases ht : test p <;> simp [taken, add, List.filter_append, ht]

theorem untaken_untaken {test' : Predicate → Bool} :
    (f.untaken test).untaken test' = f.untaken fun p => test p || test' p := by
  rw [untaken, untaken, untaken, List.filter_filter]
  exact List.filter_congr fun e _ => by simp [Bool.and_comm]

/-- Two tests at once take what one takes first and the other then. -/
theorem taken_or_perm {test' : Predicate → Bool} :
    (f.taken fun p => test p || test' p).Perm
      (f.taken test ++ (f.untaken test).taken test') := by
  have hl : f.filter (fun e => test e.predicate) =
      (f.filter fun e => test e.predicate || test' e.predicate).filter
        fun e => test e.predicate := by
    rw [List.filter_filter]
    exact List.filter_congr fun e _ => by cases test e.predicate <;> simp
  have hr : (f.filter fun e => !test e.predicate).filter (fun e => test' e.predicate) =
      (f.filter fun e => test e.predicate || test' e.predicate).filter
        fun e => !test e.predicate := by
    rw [List.filter_filter, List.filter_filter]
    exact List.filter_congr fun e _ => by cases test e.predicate <;> simp
  rw [taken, taken, taken, untaken, hl, hr, ← List.map_append]
  exact ((List.filter_append_perm _ _).symm).map _

/-- No two entries share an origin, and no origin is among the numbers. -/
def Apart (f : Floating) (is : List NodeId) : Prop :=
  (f.origins ++ is).Nodup

theorem Apart.mono {js : List NodeId} (ha : f.Apart is) (hg : g.Sublist f) (hj : js.Sublist is) :
    g.Apart js :=
  ha.sublist ((hg.map _).append hj)

theorem Apart.add (ha : f.Apart (i :: is)) : (f.add i p).Apart is := by
  rw [Apart, origins_add, List.append_assoc]
  exact ha

theorem Apart.not_mem (ha : f.Apart (i :: is)) : i ∉ f.origins :=
  fun hi => List.disjoint_of_nodup_append ha hi List.mem_cons_self

/-- Below a node that adds nothing. -/
theorem Apart.input (ha : f.Apart (i :: is)) : f.Apart is :=
  ha.mono (.refl _) (List.sublist_cons_self _ _)

theorem Apart.left {a b : List NodeId} (ha : f.Apart (i :: (a ++ b))) : f.Apart a :=
  ha.mono (.refl _) ((List.sublist_append_left a b).trans (List.sublist_cons_self i _))

theorem Apart.right {a b : List NodeId} (ha : f.Apart (i :: (a ++ b))) : f.Apart b :=
  ha.mono (.refl _) ((List.sublist_append_right a b).trans (List.sublist_cons_self i _))

/-- Below a node that starts afresh. -/
theorem Apart.inputs {a b : List NodeId} (ha : f.Apart (i :: (a ++ b))) :
    Apart [] a ∧ Apart [] b :=
  ⟨ha.left.mono (List.nil_sublist _) (.refl _), ha.right.mono (List.nil_sublist _) (.refl _)⟩

theorem mem_origins {e : Entry} (he : e ∈ f) : e.origin ∈ f.origins :=
  List.mem_map_of_mem he

theorem remove?_add (hi : i ∉ f.origins) : (f.add i p).remove? i = some f := by
  induction f with
  | nil => simp [Floating.add, remove?]
  | cons e f ih =>
      simp only [origins, List.map_cons, List.mem_cons, not_or] at hi
      have hf := ih hi.2
      simp only [Floating.add] at hf
      simp [Floating.add, remove?, hf, Ne.symm hi.1]

theorem remove?_eq_none (hi : i ∉ f.origins) : f.remove? i = none :=
  (remove?_eq_none_iff f i).mpr fun _ he heq => hi (heq ▸ mem_origins he)

/-- A removed entry has the origin asked for. -/
theorem perm_of_remove? (hf : f.remove? i = some g) :
    ∃ e : Entry, e.origin = i ∧ f.Perm (e :: g) := by
  induction f generalizing g with
  | nil => simp [remove?] at hf
  | cons e f ih =>
      by_cases he : e.origin = i
      · simp only [remove?, he, if_true, Option.some.injEq] at hf
        exact ⟨e, he, hf ▸ List.Perm.refl _⟩
      · simp only [remove?, he, if_false, Option.map_eq_some_iff] at hf
        obtain ⟨g', hg', rfl⟩ := hf
        obtain ⟨d, hd, hp⟩ := ih hg'
        exact ⟨d, hd, (hp.cons e).trans (List.Perm.swap d e g')⟩

theorem remove?_sublist (hf : f.remove? i = some g) : g.Sublist f := by
  induction f generalizing g with
  | nil => simp [remove?] at hf
  | cons e f ih =>
      by_cases he : e.origin = i
      · simp only [remove?, he, if_true, Option.some.injEq] at hf
        exact hf ▸ List.sublist_cons_self e f
      · simp only [remove?, he, if_false, Option.map_eq_some_iff] at hf
        obtain ⟨g', hg', rfl⟩ := hf
        exact (ih hg').cons_cons e

/-- An entry can be removed by its origin. -/
theorem perm_of_mem {e : Entry} (he : e ∈ f) (hf : f.origins.Nodup) :
    ∃ g, f.remove? e.origin = some g ∧ f.Perm (e :: g) := by
  obtain hn | ⟨g, hg⟩ := Option.eq_none_or_eq_some (f.remove? e.origin)
  · exact absurd rfl ((remove?_eq_none_iff f e.origin).mp hn e he)
  · obtain ⟨d, hd, hp⟩ := perm_of_remove? hg
    have hde : d = e := List.inj_on_of_nodup_map hf (hp.mem_iff.mpr List.mem_cons_self) he hd
    exact ⟨g, hg, hde ▸ hp⟩

theorem not_mem_of_perm {e : Entry} (hf : f.origins.Nodup) (hp : f.Perm (e :: g)) : e ∉ g :=
  (List.nodup_cons.mp (hp.nodup_iff.mp hf.of_map)).1

theorem mem_removed {d e : Entry} (he : e ∈ f) (hf : f.origins.Nodup) :
    d ∈ (f.remove? e.origin).getD f ↔ d ∈ f ∧ d ≠ e := by
  obtain ⟨g, hg, hp⟩ := perm_of_mem he hf
  have hn := not_mem_of_perm hf hp
  rw [hg, Option.getD_some, hp.mem_iff, List.mem_cons]
  refine ⟨fun hd => ⟨.inr hd, fun heq => hn (heq ▸ hd)⟩, fun hd => hd.1.resolve_left hd.2⟩

/-- On the way back a selection's own entry is still the last, or gone. -/
theorem sublist_add (hg : g.Sublist (f.add i p)) (hi : i ∉ f.origins) :
    (∃ a : Floating, g = a.add i p ∧ a.Sublist f ∧ g.remove? i = some a) ∨
      (g.Sublist f ∧ g.remove? i = none) := by
  obtain ⟨a, b, rfl, ha, hb⟩ := List.sublist_append_iff.mp hg
  have hai : i ∉ origins a := fun hm => hi ((ha.map _).subset hm)
  obtain rfl | rfl := List.sublist_singleton.mp hb
  · rw [List.append_nil]
    exact .inr ⟨ha, remove?_eq_none hai⟩
  · exact .inl ⟨a, rfl, ha, remove?_add hai⟩

theorem back_of_some {h : Floating} (hg : g.Sublist (f.add i p)) (hi : i ∉ f.origins)
    (found : g.remove? i = some h) : g = h.add i p ∧ h.Sublist f := by
  obtain ⟨a, hga, ha, hr⟩ | ⟨_, hr⟩ := sublist_add hg hi
  · obtain rfl := Option.some.inj (hr.symm.trans found)
    exact ⟨hga, ha⟩
  · rw [found] at hr
    cases hr

theorem back_of_none (hg : g.Sublist (f.add i p)) (hi : i ∉ f.origins)
    (gone : g.remove? i = none) : g.Sublist f := by
  obtain ⟨a, _, _, hr⟩ | ⟨hs, _⟩ := sublist_add hg hi
  · rw [gone] at hr
    cases hr
  · exact hs

/-- What comes back with a selection's own entry has not been taken, and the rest is what has not
been taken of the others. -/
theorem untaken_of_kept (hi : i ∉ f.origins) (hg : g.add i p = (f.add i p).untaken test) :
    ¬ test p ∧ g = f.untaken test := by
  rw [untaken_add] at hg
  split at hg
  · have hm : (⟨i, p⟩ : Entry) ∈ f.untaken test :=
      hg ▸ List.mem_append_right _ (List.mem_singleton_self _)
    exact absurd (mem_origins (mem_untaken.mp hm).1) hi
  · rename_i ht
    exact ⟨ht, List.append_cancel_right hg⟩

theorem untaken_of_gone (hi : i ∉ f.origins) (hs : g.Sublist f)
    (hg : g = (f.add i p).untaken test) : test p ∧ g = f.untaken test := by
  rw [untaken_add] at hg
  split at hg
  · rename_i ht
    exact ⟨ht, hg⟩
  · have hm : (⟨i, p⟩ : Entry) ∈ g := hg ▸ List.mem_append_right _ (List.mem_singleton_self _)
    exact absurd (mem_origins (hs.subset hm)) hi

/-- A condition on the entries that come back holds of a selection's own one if it is among them,
and is one on the others otherwise. -/
theorem mem_of_kept {P : Entry → Prop} (hi : i ∉ f.origins) (hs : g.Sublist f)
    (hg : ∀ e, e ∈ g.add i p ↔ e ∈ f.add i p ∧ P e) :
    P ⟨i, p⟩ ∧ ∀ e, e ∈ g ↔ e ∈ f ∧ P e := by
  simp only [Floating.add, List.mem_append, List.mem_singleton] at hg
  refine ⟨((hg ⟨i, p⟩).mp (.inr rfl)).2, fun e => ⟨fun he => ?_, fun he => ?_⟩⟩
  · exact ⟨hs.subset he, ((hg e).mp (.inl he)).2⟩
  · refine ((hg e).mpr ⟨.inl he.1, he.2⟩).resolve_right fun heq => hi ?_
    simpa [heq] using mem_origins he.1

theorem mem_of_gone {P : Entry → Prop} (hi : i ∉ f.origins) (hs : g.Sublist f)
    (hg : ∀ e, e ∈ g ↔ e ∈ f.add i p ∧ P e) : ¬ P ⟨i, p⟩ ∧ ∀ e, e ∈ g ↔ e ∈ f ∧ P e := by
  simp only [Floating.add, List.mem_append, List.mem_singleton] at hg
  refine ⟨fun hp => hi ?_, fun e => ⟨fun he => ?_, fun he => (hg e).mpr ⟨.inl he.1, he.2⟩⟩⟩
  · exact mem_origins (hs.subset ((hg ⟨i, p⟩).mpr ⟨.inr rfl, hp⟩))
  · exact ⟨hs.subset he, ((hg e).mp he).2⟩

/-- The predicates that floated before and float no longer. -/
def landed (f g : Floating) : List Predicate :=
  (f.filter fun e => e ∉ g).map Entry.predicate

theorem landed_sublist : (f.landed g).Sublist f.predicates :=
  List.filter_sublist.map _

theorem landed_subset : f.landed g ⊆ f.predicates :=
  landed_sublist.subset

theorem landed_nil : landed [] g = [] :=
  rfl

theorem landed_self : f.landed f = [] := by
  simp [landed]

/-- A selection's own entry that comes back has not landed. -/
theorem landed_kept (hi : i ∉ f.origins) : (f.add i p).landed (g.add i p) = f.landed g := by
  have hf : f.filter (fun e => e ∉ g ++ [⟨i, p⟩]) = f.filter fun e => e ∉ g := by
    refine List.filter_congr fun e he => ?_
    have hne : e ≠ ⟨i, p⟩ := fun heq => hi (by simpa [heq] using mem_origins he)
    simp [hne]
  have hown : [(⟨i, p⟩ : Entry)].filter (fun e => e ∉ g ++ [⟨i, p⟩]) = [] := by simp
  rw [landed, landed, Floating.add, Floating.add, List.filter_append, hf, hown, List.append_nil]

theorem landed_gone (hi : i ∉ f.origins) (hg : g.Sublist f) :
    (f.add i p).landed g = f.landed g ++ [p] := by
  have hn : (⟨i, p⟩ : Entry) ∉ g := fun hm => hi (mem_origins (hg.subset hm))
  simp [landed, Floating.add, List.filter_append, hn]

/-- Of an entry removed by its origin, the predicate has landed. -/
theorem landed_removed {e : Entry} (hf : f.origins.Nodup) (hp : f.Perm (e :: g)) :
    f.landed g = [e.predicate] := by
  have hn := not_mem_of_perm hf hp
  have hg : g.filter (fun d => d ∉ g) = [] := List.filter_eq_nil_iff.mpr fun d hd => by simpa
  have he := hp.filter fun d => d ∉ g
  rw [List.filter_cons, if_pos (by simpa), hg, List.perm_singleton] at he
  rw [landed, he, List.map_singleton]

end QueryPlan.Floating
