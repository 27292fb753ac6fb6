import QueryPlan.Proofs.FuseJoins.Run
import QueryPlan.Proofs.Prepare
import QueryPlan.Proofs.PushProjects.Run
import QueryPlan.Proofs.PushSelects.Run
import QueryPlan.Proofs.ReorderProducts.Success

/-!
Runs of rules. What one rule keeps, a list of rules keeps, whichever of them are
disabled: first for plans of any shape, then for plans without projections but at
the root, which one list may project at its end.
-/

namespace QueryPlan

open Planner Plan

variable {rule : Rule} {rules : List Rule} {options : Options} {p q : Plan} {s t : Progress}
  {e : Statistics} {o : Option (List Column)} {db : Database}

/-- A step passes its rule over, or applies it between two reports. -/
theorem returns_step (h : Returns (options.step p rule) s q t) :
    (rule ∈ options.disabled ∧ q = p ∧ t.issued = s.issued) ∨
      ∃ u v, Returns (rule.apply p) u q v ∧ u.issued = s.issued ∧ t.issued = v.issued := by
  unfold Options.step at h
  split at h
  · rename_i disabled
    obtain ⟨_, u, reported, h₁⟩ := returns_bind.mp h
    obtain ⟨rfl, rfl⟩ := returns_pure.mp h₁
    exact .inl ⟨disabled, rfl, by rw [returns_report.mp reported]⟩
  · obtain ⟨_, u, reported, h₁⟩ := returns_bind.mp h
    obtain ⟨q', v, applied, h₂⟩ := returns_bind.mp h₁
    have hu : u.issued = s.issued := by rw [returns_report.mp reported]
    split at h₂
    · obtain ⟨_, w, reported, h₃⟩ := returns_bind.mp h₂
      obtain ⟨rfl, rfl⟩ := returns_pure.mp h₃
      exact .inr ⟨u, v, applied, hu, by rw [returns_report.mp reported]⟩
    · obtain ⟨rfl, rfl⟩ := returns_pure.mp h₂
      exact .inr ⟨u, t, applied, hu, rfl⟩

theorem succeeds_step (h : ∀ x, Succeeds (rule.apply p) x) (x : Progress) :
    Succeeds (options.step p rule) x := by
  unfold Options.step
  split
  · exact (returns_of_report _ x).bind succeeds_pure
  · apply (returns_of_report _ x).bind
    obtain ⟨q, u, applied⟩ := h ⟨x.issued, x.events.push (.applying rule)⟩
    apply applied.bind
    split
    · exact (returns_of_report _ u).bind succeeds_pure
    · exact succeeds_pure

theorem returns_steps : Returns ((rule :: rules).foldlM options.step p) s q t ↔
    ∃ r u, Returns (options.step p rule) s r u ∧ Returns (rules.foldlM options.step r) u q t := by
  rw [List.foldlM_cons]
  exact returns_bind

theorem renewed_of_apply (h : Returns (rule.apply p) s q t) (hp : p.Estimated e) :
    Renewed s.issued p t.issued q := by
  cases rule with
  | pushSelectsDown => exact PushSelects.renewed_of_run h hp
  | reorderProducts => exact ReorderProducts.renewed_of_run h hp
  | fuseJoins => exact FuseJoins.renewed_of_run h hp
  | pushProjectsDown => exact PushProjects.renewed_of_run h hp

theorem conserved_of_apply (h : Returns (rule.apply p) s q t) (hp : p.Estimated e)
    (hi : p.ids.Nodup) : Conserved s.issued p t.issued q := by
  cases rule with
  | pushSelectsDown => exact PushSelects.conserved_of_run h hp hi
  | reorderProducts => exact ReorderProducts.conserved_of_run h hp
  | fuseJoins => exact FuseJoins.conserved_of_run h hp hi
  | pushProjectsDown => exact PushProjects.conserved_of_run h hp

/-- Numbers or no numbers, a rule makes up no predicate. -/
theorem forms_of_apply (h : Returns (rule.apply p) s q t) (hp : p.Estimated e) :
    Predicate.forms q.predicates ⊆ Predicate.forms p.predicates := by
  cases rule with
  | pushSelectsDown =>
      have hsub := (PushSelects.pushed_of_run h).predicates_subset hp
      exact Multiset.map_subset_map hsub
  | reorderProducts =>
      exact Multiset.subset_of_le (ReorderProducts.conserved_of_run h hp).forms.le
  | fuseJoins =>
      obtain ⟨_, fused⟩ := FuseJoins.fused_of_run h hp
      exact fused.forms_subset
  | pushProjectsDown =>
      exact Multiset.subset_of_le (PushProjects.conserved_of_run h hp).forms.le

theorem renewed_of_step (h : Returns (options.step p rule) s q t) (hp : p.Estimated e) :
    Renewed s.issued p t.issued q := by
  obtain ⟨_, rfl, hu⟩ | ⟨u, v, applied, hu, hv⟩ := returns_step h
  · rw [hu]
    exact .refl _ hp
  · rw [← hu, hv]
    exact renewed_of_apply applied hp

theorem conserved_of_step (h : Returns (options.step p rule) s q t) (hp : p.Estimated e)
    (hi : p.ids.Nodup) : Conserved s.issued p t.issued q := by
  obtain ⟨_, rfl, hu⟩ | ⟨u, v, applied, hu, hv⟩ := returns_step h
  · rw [hu]
    exact .refl _ _
  · rw [← hu, hv]
    exact conserved_of_apply applied hp hi

theorem forms_of_step (h : Returns (options.step p rule) s q t) (hp : p.Estimated e) :
    Predicate.forms q.predicates ⊆ Predicate.forms p.predicates := by
  obtain ⟨_, rfl, _⟩ | ⟨_, _, applied, _, _⟩ := returns_step h
  · exact Multiset.Subset.refl _
  · exact forms_of_apply applied hp

theorem renewed_of_steps (h : Returns (rules.foldlM options.step p) s q t) (hp : p.Estimated e) :
    Renewed s.issued p t.issued q := by
  induction rules generalizing p s e with
  | nil =>
      obtain ⟨rfl, rfl⟩ := returns_pure.mp h
      exact .refl _ hp
  | cons rule rules ih =>
      obtain ⟨r, u, step, rest⟩ := returns_steps.mp h
      have hr := renewed_of_step step hp
      obtain ⟨_, hk⟩ := hr.known
      exact hr.trans (ih rest hk)

theorem forms_of_steps (h : Returns (rules.foldlM options.step p) s q t) (hp : p.Estimated e) :
    Predicate.forms q.predicates ⊆ Predicate.forms p.predicates := by
  induction rules generalizing p s e with
  | nil =>
      obtain ⟨rfl, rfl⟩ := returns_pure.mp h
      exact Multiset.Subset.refl _
  | cons rule rules ih =>
      obtain ⟨r, u, step, rest⟩ := returns_steps.mp h
      obtain ⟨_, hr⟩ := (renewed_of_step step hp).known
      exact Multiset.Subset.trans (ih rest hr) (forms_of_step step hp)

theorem exists_of_steps (h : Returns (rules.foldlM options.step p) s q t) (hp : p.Estimated e) :
    ∀ a ∈ q.predicates, ∃ b ∈ p.predicates, a = b ∨ a = b.swapped := by
  intro a ha
  have hform := forms_of_steps h hp (Predicate.mem_forms.mpr ⟨a, ha, rfl⟩)
  obtain ⟨b, hb, heq⟩ := Predicate.mem_forms.mp hform
  exact ⟨b, hb, Predicate.form_eq_iff.mp heq.symm⟩

theorem nodup_of_issued {n m : Nat} (h : (p.ids : Multiset NodeId) ≤ numbers n m)
    (hm : m ≤ n + 2 ^ 32) : p.ids.Nodup :=
  Multiset.coe_nodup.mp (Multiset.nodup_of_le h (numbers_nodup hm))

theorem issued_of_conserved {n m k : Nat} (h : Conserved m p k q)
    (hi : (p.ids : Multiset NodeId) ≤ numbers n m) (hn : n ≤ m) (hm : m ≤ k) :
    (q.ids : Multiset NodeId) ≤ numbers n k := by
  rw [← numbers_add hn hm]
  exact h.ids.trans (add_le_add hi (le_refl _))

theorem conserved_of_steps {n : Nat} (h : Returns (rules.foldlM options.step p) s q t)
    (hp : p.Estimated e) (hn : n ≤ s.issued)
    (hi : (p.ids : Multiset NodeId) ≤ numbers n s.issued) (ht : t.issued ≤ n + 2 ^ 32) :
    Conserved s.issued p t.issued q := by
  induction rules generalizing p s e with
  | nil =>
      obtain ⟨rfl, rfl⟩ := returns_pure.mp h
      exact .refl _ _
  | cons rule rules ih =>
      obtain ⟨r, u, step, rest⟩ := returns_steps.mp h
      have hr := renewed_of_step step hp
      obtain ⟨_, hk⟩ := hr.known
      have hrest := renewed_of_steps rest hk
      have hs : s.issued ≤ n + 2 ^ 32 := (hr.le.trans hrest.le).trans ht
      have hc := conserved_of_step step hp (nodup_of_issued hi hs)
      have hu := issued_of_conserved hc hi hn hr.le
      exact hc.trans (ih rest hk (hn.trans hr.le) hu) hr.le hrest.le

theorem rooted_of_apply (h : Returns (rule.apply p) s q t) (hp : p.Estimated e) (hr : Rooted o p)
    (hn : rule ≠ .pushProjectsDown) : Rooted o q := by
  cases rule with
  | pushSelectsDown => exact PushSelects.rooted_of_run h hp hr
  | reorderProducts => exact ReorderProducts.rooted_of_run h hp hr
  | fuseJoins => exact FuseJoins.rooted_of_run h hp hr
  | pushProjectsDown => exact (hn rfl).elim

theorem faithful_of_apply (h : Returns (rule.apply p) s q t) (hp : p.Estimated e)
    (hi : p.ids.Nodup) (hr : Rooted o p) (ho : o ≠ some []) (hd : p.DistinctColumns)
    (hdb : p.Fitted db) : Faithful db p q := by
  cases rule with
  | pushSelectsDown => exact PushSelects.faithful_of_run h hp hi hd hdb
  | reorderProducts => exact ReorderProducts.faithful_of_run h hp hr hd hdb
  | fuseJoins => exact FuseJoins.faithful_of_run h hp hi
  | pushProjectsDown => exact PushProjects.faithful_of_run h hp hr ho hd hdb

/-- The columns in sight do not depend on the numbers. -/
theorem columns_of_apply (h : Returns (rule.apply p) s q t) (hp : p.Estimated e) (hr : Rooted o p)
    (ho : o ≠ some []) (hd : p.DistinctColumns) (a : Column) : a ∈ q.columns ↔ a ∈ p.columns := by
  cases rule with
  | pushSelectsDown => rw [(PushSelects.pushed_of_run h).columns hp]
  | reorderProducts => exact (ReorderProducts.ran_of_returns h hp).columns hp hr.unbroken a
  | fuseJoins =>
      obtain ⟨_, fused⟩ := FuseJoins.fused_of_run h hp
      rw [fused.columns]
  | pushProjectsDown =>
      exact (PushProjects.faithful_of_run h hp hr ho hd (fitted_nil p)).columns a

theorem succeeds_apply (hp : p.Estimated e) (hr : Rooted o p) (hd : p.DistinctColumns)
    (x : Progress) : Succeeds (rule.apply p) x := by
  cases rule with
  | pushSelectsDown => exact PushSelects.succeeds_run hp hd x
  | reorderProducts => exact ReorderProducts.succeeds_run hp hr.unbroken hd x
  | fuseJoins => exact FuseJoins.succeeds_run hp hd x
  | pushProjectsDown => exact PushProjects.succeeds_run hp hd x

theorem rooted_of_step (h : Returns (options.step p rule) s q t) (hp : p.Estimated e)
    (hr : Rooted o p) (hn : rule ≠ .pushProjectsDown) : Rooted o q := by
  obtain ⟨_, rfl, _⟩ | ⟨u, v, applied, _, _⟩ := returns_step h
  · exact hr
  · exact rooted_of_apply applied hp hr hn

theorem columns_of_step (h : Returns (options.step p rule) s q t) (hp : p.Estimated e)
    (hr : Rooted o p) (ho : o ≠ some []) (hd : p.DistinctColumns) (a : Column) :
    a ∈ q.columns ↔ a ∈ p.columns := by
  obtain ⟨_, rfl, _⟩ | ⟨u, v, applied, _, _⟩ := returns_step h
  · rfl
  · exact columns_of_apply applied hp hr ho hd a

theorem faithful_of_step (h : Returns (options.step p rule) s q t) (hp : p.Estimated e)
    (hi : p.ids.Nodup) (hr : Rooted o p) (ho : o ≠ some []) (hd : p.DistinctColumns)
    (hdb : p.Fitted db) : Faithful db p q := by
  obtain ⟨_, rfl, _⟩ | ⟨u, v, applied, _, _⟩ := returns_step h
  · exact .refl db _
  · exact faithful_of_apply applied hp hi hr ho hd hdb

theorem ne_of_not_mem_dropLast {r : Rule}
    (h : Rule.pushProjectsDown ∉ (rule :: r :: rules).dropLast) :
    rule ≠ .pushProjectsDown ∧ Rule.pushProjectsDown ∉ (r :: rules).dropLast := by
  rw [List.dropLast_cons_cons, List.mem_cons, not_or] at h
  exact ⟨Ne.symm h.1, h.2⟩

/-- A plan in the middle of a run that began after `n` numbers: it has columns of its own, no
projection but the one at the root, and numbers of the run only. -/
structure Ready (n : Nat) (o : Option (List Column)) (s : Progress) (p : Plan) : Prop where
  known : ∃ e, p.Estimated e
  begun : n ≤ s.issued
  ids : (p.ids : Multiset NodeId) ≤ numbers n s.issued
  rooted : Rooted o p
  distinct : p.DistinctColumns

theorem Ready.step {n : Nat} (hp : Ready n o s p) (h : Returns (options.step p rule) s q t)
    (hn : rule ≠ .pushProjectsDown) (hs : s.issued ≤ n + 2 ^ 32) : Ready n o t q := by
  obtain ⟨e, he⟩ := hp.known
  have hnew := renewed_of_step h he
  have hc := conserved_of_step h he (nodup_of_issued hp.ids hs)
  exact ⟨hnew.known, hp.begun.trans hnew.le, issued_of_conserved hc hp.ids hp.begun hnew.le,
    rooted_of_step h he hp.rooted hn, hp.distinct.of_scans hnew.scans⟩

theorem faithful_of_steps {n : Nat} (h : Returns (rules.foldlM options.step p) s q t)
    (hrules : Rule.pushProjectsDown ∉ rules.dropLast) (hp : Ready n o s p)
    (ht : t.issued ≤ n + 2 ^ 32) (ho : o ≠ some []) (hdb : p.Fitted db) : Faithful db p q := by
  induction rules generalizing p s with
  | nil =>
      obtain ⟨rfl, rfl⟩ := returns_pure.mp h
      exact .refl db _
  | cons rule rules ih =>
      obtain ⟨r, u, step, rest⟩ := returns_steps.mp h
      obtain ⟨e, he⟩ := hp.known
      have hnew := renewed_of_step step he
      obtain ⟨_, hk⟩ := hnew.known
      have hs : s.issued ≤ n + 2 ^ 32 := (hnew.le.trans (renewed_of_steps rest hk).le).trans ht
      have hf := faithful_of_step step he (nodup_of_issued hp.ids hs) hp.rooted ho hp.distinct hdb
      cases rules with
      | nil =>
          obtain ⟨rfl, rfl⟩ := returns_pure.mp rest
          exact hf
      | cons next rules =>
          obtain ⟨hne, hlast⟩ := ne_of_not_mem_dropLast hrules
          have hfit : r.Fitted db := fun b hb => hdb b (hnew.scans.mem_iff.mp hb)
          exact hf.trans (ih rest hlast (hp.step step hne hs) hfit)

theorem columns_of_steps (h : Returns (rules.foldlM options.step p) s q t)
    (hrules : Rule.pushProjectsDown ∉ rules.dropLast) (hp : p.Estimated e) (hr : Rooted o p)
    (ho : o ≠ some []) (hd : p.DistinctColumns) (a : Column) : a ∈ q.columns ↔ a ∈ p.columns := by
  induction rules generalizing p s e with
  | nil =>
      obtain ⟨rfl, rfl⟩ := returns_pure.mp h
      rfl
  | cons rule rules ih =>
      obtain ⟨r, u, step, rest⟩ := returns_steps.mp h
      have hstep := columns_of_step step hp hr ho hd a
      have renewed := renewed_of_step step hp
      obtain ⟨_, hk⟩ := renewed.known
      cases rules with
      | nil =>
          obtain ⟨rfl, rfl⟩ := returns_pure.mp rest
          exact hstep
      | cons next rules =>
          obtain ⟨hne, hlast⟩ := ne_of_not_mem_dropLast hrules
          have hrest := ih rest hlast hk (rooted_of_step step hp hr hne) (hd.of_scans renewed.scans)
          exact hrest.trans hstep

theorem succeeds_steps (hrules : Rule.pushProjectsDown ∉ rules.dropLast) (hp : p.Estimated e)
    (hr : Rooted o p) (hd : p.DistinctColumns) (x : Progress) :
    Succeeds (rules.foldlM options.step p) x := by
  induction rules generalizing p x e with
  | nil => exact succeeds_pure
  | cons rule rules ih =>
      obtain ⟨q, u, step⟩ : Succeeds (options.step p rule) x :=
        succeeds_step (succeeds_apply hp hr hd) x
      rw [List.foldlM_cons]
      apply step.bind
      cases rules with
      | nil => exact succeeds_pure
      | cons next rules =>
          obtain ⟨hne, hlast⟩ := ne_of_not_mem_dropLast hrules
          have hnew := renewed_of_step step hp
          obtain ⟨_, hk⟩ := hnew.known
          exact ih hlast hk (rooted_of_step step hp hr hne) (hd.of_scans hnew.scans) u

end QueryPlan
