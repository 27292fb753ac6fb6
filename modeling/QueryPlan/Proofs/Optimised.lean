import QueryPlan.Proofs.Consistent
import QueryPlan.Proofs.Origins
import QueryPlan.Proofs.Recurring

/-!
What optimisation does to a canonical plan, for all runs of rules: it fails only where
the copy fails, loses or doubles no relation, and leaves no estimate stale. As long as
no number is given out twice it also returns the same rows and neither loses nor doubles
a predicate, and the standard rules leave no product where the query has an equation for
a join. A run that goes through all numbers may do none of these three.
-/

namespace QueryPlan

open Planner Plan

variable {c : Catalogue} {rules : List Rule} {options : Options} {p q : Plan} {s t : Progress}

theorem Copied.ready {u : Progress} (h : Copied c s.issued p u.issued q) (hp : p.Canonical)
    (hd : p.DistinctSources c) : Ready s.issued p.operator.columns? u q where
  known := h.known
  begun := h.le
  ids := h.ids_eq.le
  rooted := h.rooted hp
  distinct := h.distinctColumns hd

def sample : Plan :=
  ⟨.project [⟨"x"⟩], [⟨.select (.equalsColumn ⟨"x"⟩ ⟨"y"⟩), [⟨.product,
    [⟨.scan ⟨"r", ⟨0, []⟩⟩, [], 0, none⟩, ⟨.scan ⟨"s", ⟨0, []⟩⟩, [], 0, none⟩],
    0, none⟩], 0, none⟩], 0, none⟩

def sampleCatalogue : Catalogue :=
  .ofList [⟨"r", ⟨8, [⟨⟨"x"⟩, 4⟩]⟩⟩, ⟨"s", ⟨2, [⟨⟨"y"⟩, 2⟩, ⟨⟨"z"⟩, 1⟩]⟩⟩]

theorem canonical_sample : sample.Canonical := by
  decide +kernel

theorem distinctSources_sample : sample.DistinctSources sampleCatalogue := by
  decide +kernel

theorem returns_sample :
    ∃ q t, Returns (optimise sampleCatalogue Rule.standard .standard sample) .start q t ∧
      t.issued ≤ Progress.start.issued + 2 ^ 32 := by
  obtain ⟨q, h⟩ := returns_of_isOk
    (m := optimise sampleCatalogue Rule.standard .standard sample) (s := .start) (by decide +kernel)
  exact ⟨q, _, h, by decide +kernel⟩

/-- Whatever the rules and the statistics, if only the last rule projects, an optimised plan has
the columns of the canonical plan. It returns the same rows if the run has given out no number
twice: `PushSelects` and `FuseJoins` tell selections apart by them. -/
theorem optimise_faithful (hp : p.Canonical) (hc : p.operator.columns? ≠ some [])
    (hd : p.DistinctSources c) (hrules : Rule.pushProjectsDown ∉ rules.dropLast)
    (h : Returns (optimise c rules options p) s q t) :
    ∃ e, q.output = .ok e ∧ (∀ a, a ∈ e ↔ a ∈ (p.relinked c).columns) ∧
      (t.issued ≤ s.issued + 2 ^ 32 →
        ∀ db : Database, (∀ r ∈ c.relations, db.Fits r) → (q.rows db).Perm (p.rows db)) := by
  obtain ⟨r, u, prepared, steps⟩ := returns_bind.mp h
  have copied := copied_of_returns prepared
  have ready := copied.ready hp hd
  obtain ⟨_, hr⟩ := ready.known
  obtain ⟨e, hq⟩ := (renewed_of_steps steps hr).known
  refine ⟨e, hq.output_eq, fun a => ?_, fun ht db hdb => ?_⟩
  · rw [hq.mem_iff, columns_of_steps steps hrules hr ready.rooted hc ready.distinct a,
      copied.columns]
  · have hfit : r.Fitted db := by
      intro b hb
      rw [copied.scans] at hb
      exact hdb b (sources_subset c p hb)
    rw [← copied.rows db]
    exact (faithful_of_steps steps hrules ready ht hc hfit).rows

theorem optimise_faithful_sample :
    ∃ q t e, Returns (optimise sampleCatalogue Rule.standard .standard sample) .start q t ∧
      q.output = .ok e ∧ (∀ a, a ∈ e ↔ a ∈ (sample.relinked sampleCatalogue).columns) ∧
      ∀ db : Database, (∀ r ∈ sampleCatalogue.relations, db.Fits r) →
        (q.rows db).Perm (sample.rows db) := by
  obtain ⟨q, t, h, ht⟩ := returns_sample
  obtain ⟨e, he, hcols, hrows⟩ := optimise_faithful canonical_sample (by decide)
    distinctSources_sample (by decide) h
  exact ⟨q, t, e, h, he, hcols, hrows ht⟩

/-- A run that has gone through all numbers loses an equation, and with it returns other rows. -/
theorem optimise_faithful_crowded :
    Recurring.crowded.Canonical ∧ Recurring.crowded.operator.columns? ≠ some [] ∧
      Recurring.crowded.DistinctSources Recurring.catalogue ∧
      ∃ q t, Returns (optimise Recurring.catalogue [.pushSelectsDown] .standard Recurring.crowded)
          .start q t ∧
        ∃ db : Database, (∀ r ∈ Recurring.catalogue.relations, db.Fits r) ∧
          ¬ (q.rows db).Perm (Recurring.crowded.rows db) := by
  have hg := Recurring.hollow_grove 30
  have hcols : Recurring.crowded.operator.columns? ≠ some [] := fun h => by cases h
  obtain ⟨r, _, _, q, t, returned, rest, _, _, _, hrows⟩ := Recurring.returns_straddled []
    .standard hg Recurring.size_grove_recurs (by decide) (by decide) .start
  obtain ⟨rfl, rfl⟩ := returns_pure.mp rest
  refine ⟨Recurring.canonical_straddled hg, hcols, Recurring.distinctSources_straddled hg, q, t,
    returned, Recurring.database, Recurring.fits_database, fun hperm => hrows ?_⟩
  rw [Recurring.crowded, Recurring.rows_straddled] at hperm
  exact hperm.eq_nil

/-- Optimisation of a canonical plan succeeds just when its operators have their inputs, its
relations are known, and what it looks up is in sight and can be divided by. Then the copy
succeeds, and after the copy nothing fails. -/
theorem succeeds_optimise_iff (hp : p.Canonical) (hd : p.DistinctSources c)
    (hrules : Rule.pushProjectsDown ∉ rules.dropLast) :
    (Succeeds (optimise c rules options p) s ↔ p.Legal c) ∧
      (Succeeds (prepare c p) s → Succeeds (optimise c rules options p) s) := by
  have hafter : Succeeds (prepare c p) s → Succeeds (optimise c rules options p) s := by
    intro hprepare
    obtain ⟨r, u, prepared⟩ := hprepare
    have copied := copied_of_returns prepared
    obtain ⟨_, hr⟩ := copied.known
    exact prepared.bind
      (succeeds_steps hrules hr (copied.rooted hp) (copied.distinctColumns hd) u)
  refine ⟨⟨fun hs => ?_, fun hlegal => ?_⟩, hafter⟩
  · obtain ⟨q, t, h⟩ := hs
    obtain ⟨r, u, prepared, _⟩ := returns_bind.mp h
    have copied := copied_of_returns prepared
    exact ⟨copied.wellShaped, copied.named, copied.inSight,
      copied.divisible (copied.distinctColumns hd)⟩
  · exact hafter (succeeds_prepare hlegal hp.joinFree hd s)

theorem succeeds_optimise_sample :
    Succeeds (optimise sampleCatalogue Rule.standard .standard sample) .start ∧
      sample.Legal sampleCatalogue := by
  obtain ⟨q, t, h, _⟩ := returns_sample
  have hs : Succeeds (optimise sampleCatalogue Rule.standard .standard sample) .start := ⟨q, t, h⟩
  exact ⟨hs, (succeeds_optimise_iff canonical_sample distinctSources_sample (by decide)).1.mp hs⟩

theorem names_sources (h : ∀ r ∈ p.scans, r.name ∈ c) :
    (p.sources c).map BaseRelation.name = p.scans.map BaseRelation.name := by
  rw [sources, List.map_filterMap, ← List.filterMap_eq_map]
  refine List.filterMap_congr fun r hr => ?_
  obtain ⟨b, hb⟩ := Option.isSome_iff_exists.mp (h r hr)
  rw [hb, Option.map_some, Catalogue.name_of_relation? hb]
  rfl

/-- Whatever the plan and the rules, the relations scanned stay the same by name, and as long as
no number is given out twice, so do the predicates up to the order of their sides. -/
theorem optimise_conserves (h : Returns (optimise c rules options p) s q t) :
    (q.scans.map BaseRelation.name).Perm (p.scans.map BaseRelation.name) ∧
      (t.issued ≤ s.issued + 2 ^ 32 →
        Multiset.Rel (fun a b => a = b ∨ a = b.swapped) (q.predicates : Multiset Predicate)
          p.selections) := by
  obtain ⟨r, u, prepared, steps⟩ := returns_bind.mp h
  have copied := copied_of_returns prepared
  obtain ⟨_, hr⟩ := copied.known
  have renewed := renewed_of_steps steps hr
  refine ⟨?_, fun ht => ?_⟩
  · rw [← names_sources copied.named, ← copied.scans]
    exact renewed.scans.map _
  · have hforms := (conserved_of_steps steps hr copied.le copied.ids_eq.le ht).forms
    rw [copied.predicates, Predicate.forms, Predicate.forms, ← Multiset.rel_eq,
      Multiset.rel_map] at hforms
    rw [JoinFree.selections_eq copied.joinFree]
    exact hforms.mono fun _ _ _ _ heq => Predicate.form_eq_iff.mp heq

theorem optimise_conserves_sample :
    ∃ q t, Returns (optimise sampleCatalogue Rule.standard .standard sample) .start q t ∧
      (q.scans.map BaseRelation.name).Perm (sample.scans.map BaseRelation.name) ∧
      Multiset.Rel (fun a b => a = b ∨ a = b.swapped) (q.predicates : Multiset Predicate)
        sample.selections := by
  obtain ⟨q, t, h, ht⟩ := returns_sample
  obtain ⟨hscans, hpredicates⟩ := optimise_conserves h
  exact ⟨q, t, h, hscans, hpredicates ht⟩

theorem optimise_conserves_crowded :
    ∃ q t, Returns (optimise Recurring.catalogue [.pushSelectsDown] .standard Recurring.crowded)
        .start q t ∧
      ¬ Multiset.Rel (fun a b => a = b ∨ a = b.swapped) (q.predicates : Multiset Predicate)
        Recurring.crowded.selections := by
  have hg := Recurring.hollow_grove 30
  obtain ⟨r, _, _, q, t, returned, rest, _, _, hpredicates, _⟩ := Recurring.returns_straddled []
    .standard hg Recurring.size_grove_recurs (by decide) (by decide) .start
  obtain ⟨rfl, rfl⟩ := returns_pure.mp rest
  refine ⟨q, t, returned, fun hrel => ?_⟩
  obtain ⟨a, ha, hlost⟩ := Multiset.exists_mem_of_rel_of_mem (Multiset.rel_flip.mpr hrel)
    (Recurring.mem_selections_straddled hg)
  have hkept : a = Recurring.comparison := by
    simpa using hpredicates.mem_iff.mp (Multiset.mem_coe.mp ha)
  subst hkept
  obtain h | h := hlost
  · exact absurd h (by decide)
  · exact absurd h (by decide)

/-- Whatever the plan, its estimates and the rules, the estimates of an optimised plan are those
of its operators on the outputs of their inputs, so estimating it anew changes nothing. -/
theorem optimise_consistent (h : Returns (optimise c rules options p) s q t) :
    q.Consistent ∧ q.reestimate = .ok q := by
  obtain ⟨r, u, prepared, steps⟩ := returns_bind.mp h
  obtain ⟨_, hr⟩ := (copied_of_returns prepared).known
  obtain ⟨_, hq⟩ := (renewed_of_steps steps hr).known
  exact ⟨hq.consistent, hq.reestimate_eq⟩

theorem optimise_consistent_sample :
    ∃ q t, Returns (optimise sampleCatalogue Rule.standard .standard sample) .start q t ∧
      q.Consistent ∧ q.reestimate = .ok q := by
  obtain ⟨q, t, h, _⟩ := returns_sample
  exact ⟨q, t, h, optimise_consistent h⟩

/-- Whatever the plan, as long as numbers have not started again, those of the plan that the rules
applied so far have made are apart, and given out. So whichever rule comes next, no list of
floating predicates that it comes by has two entries from selections of one number. -/
theorem optimise_ids (h : Returns (optimise c rules options p) s q t) (ht : t.issued < 2 ^ 32) :
    q.DistinctIds ∧ (∀ i ∈ q.ids, i ≤ t.lastId) ∧
      ∀ rule f, Rule.Meets rule q f → f.origins.Nodup := by
  obtain ⟨r, u, prepared, steps⟩ := returns_bind.mp h
  have copied := copied_of_returns prepared
  obtain ⟨_, hr⟩ := copied.known
  have renewed := renewed_of_steps steps hr
  obtain ⟨_, hq⟩ := renewed.known
  have hs : t.issued ≤ s.issued + 2 ^ 32 := by omega
  have conserved := conserved_of_steps steps hr copied.le copied.ids_eq.le hs
  have issued := issued_of_conserved conserved copied.ids_eq.le copied.le renewed.le
  have distinct : q.ids.Nodup := nodup_of_issued issued hs
  refine ⟨distinct, fun i hi => ?_, fun rule f hf => hf.nodup hq distinct⟩
  exact le_of_mem_numbers ht (Multiset.mem_of_le issued (Multiset.mem_coe.mpr hi))

theorem optimise_ids_sample :
    ∃ q t, Returns (optimise sampleCatalogue Rule.standard .standard sample) .start q t ∧
      q.DistinctIds ∧ (∀ i ∈ q.ids, i ≤ t.lastId) ∧
      ∀ rule f, Rule.Meets rule q f → f.origins.Nodup := by
  obtain ⟨q, h⟩ := returns_of_isOk
    (m := optimise sampleCatalogue Rule.standard .standard sample) (s := .start) (by decide +kernel)
  exact ⟨q, _, h, optimise_ids h (by decide +kernel)⟩

/-- A column scanned on the left of a node and in sight above it is in sight on its left. -/
theorem Estimated.mem_sides {op : Operator} {l r : Plan} {i : NodeId} {x : Option Statistics}
    {e d : Statistics} {a : Column} (hl : l.Estimated e) (hr : r.Estimated d)
    (ho : op.arity = 2) (hd : (Plan.mk op [l, r] i x).DistinctColumns)
    (ha : a ∈ (Plan.mk op [l, r] i x).columns) :
    (a ∈ l.leafColumns → a ∈ e) ∧ (a ∈ r.leafColumns → a ∈ d) := by
  rw [columns_binary ho, List.mem_append] at ha
  have hdis := hd.binary.2.2
  rw [hl.mem_iff, hr.mem_iff]
  refine ⟨fun hal => ha.resolve_right fun h => ?_, fun har => ha.resolve_left fun h => ?_⟩
  · exact hdis hal (hr.columns_subset h)
  · exact hdis (hl.columns_subset h) har

/-- The standard rules leave no product whose two sides an equation of the query spans: a node
with such sides is a join on such an equation, each column of which its own side returns. -/
theorem optimise_standard_joins (hp : p.Canonical) (hd : p.DistinctSources c)
    (hen : options.disabled = []) (h : Returns (optimise c Rule.standard options p) s q t)
    (ht : t.issued ≤ s.issued + 2 ^ 32) :
    ∀ x ∈ q.preorder,
      (x.operator = .product → ∃ l r, x.inputs = [l, r] ∧
        ∀ predicate ∈ p.selections, ¬ predicate.Spans l.leafColumns r.leafColumns) ∧
      ∀ l r, x.inputs = [l, r] →
        (∃ predicate ∈ p.selections, predicate.Spans l.leafColumns r.leafColumns) →
        ∃ a b d e, x.operator = .join (.equalsColumn a b) ∧
          (.equalsColumn a b ∈ p.selections ∨ .equalsColumn b a ∈ p.selections) ∧
          (Predicate.equalsColumn a b).Spans l.leafColumns r.leafColumns ∧
          l.output = .ok d ∧ a ∈ d ∧ r.output = .ok e ∧ b ∈ e := by
  obtain ⟨r, u, prepared, steps⟩ := returns_bind.mp h
  have copied := copied_of_returns prepared
  have ready := copied.ready hp hd
  obtain ⟨_, hr⟩ := ready.known
  have renewed := renewed_of_steps steps hr
  obtain ⟨_, hq⟩ := renewed.known
  have hdq := ready.distinct.of_scans renewed.scans
  have hjr := copied.every (fun _ => rfl) hp.joinFree
  have matched := matched_of_standard ready hjr steps hen ht
  rw [copied.predicates, ← JoinFree.selections_eq hp.joinFree] at matched
  intro x hx
  obtain ⟨⟨_, hxe⟩, hsub⟩ := hq.of_mem hx
  have hdx : x.DistinctColumns := hdq.sublist (hsub.flatMap _)
  have hmx := matched x hx
  cases hxe with
  | @product l r _ _ i hl hr =>
      refine ⟨fun _ => ⟨l, r, rfl, fun predicate hm hspan => ?_⟩, fun l' r' hi hex => ?_⟩
      · obtain ⟨_, _, _, _, hop, _⟩ := hmx l r rfl ⟨predicate, hm, hspan⟩
        cases hop
      · obtain ⟨_, _, _, _, hop, _⟩ := hmx l' r' hi hex
        cases hop
  | @join l r d e _ _ i hl hr he =>
      refine ⟨fun hop => (by cases hop), fun l' r' hi hex => ?_⟩
      cases hi
      obtain ⟨a, ha, b, hb, hop, hm⟩ := hmx l r rfl hex
      cases hop
      have hown := Estimated.own_covered (.join i hl hr he) rfl
      have hsa := Estimated.mem_sides hl hr rfl hdx (hown List.mem_cons_self)
      have hsb := Estimated.mem_sides hl hr rfl hdx
        (hown (List.mem_cons_of_mem _ List.mem_cons_self))
      exact ⟨a, b, d, e, rfl, hm, .inl ⟨ha, hb⟩, hl.output_eq, hsa.1 ha, hr.output_eq, hsb.2 hb⟩
  | scan _ _ | select _ _ _ | project _ _ _ =>
      exact ⟨fun hop => (by cases hop), fun l r hi => (by cases hi)⟩

theorem optimise_standard_joins_sample :
    ∃ q t, Returns (optimise sampleCatalogue Rule.standard .standard sample) .start q t ∧
      ∀ x ∈ q.preorder,
        (x.operator = .product → ∃ l r, x.inputs = [l, r] ∧
          ∀ predicate ∈ sample.selections, ¬ predicate.Spans l.leafColumns r.leafColumns) ∧
        ∀ l r, x.inputs = [l, r] →
          (∃ predicate ∈ sample.selections, predicate.Spans l.leafColumns r.leafColumns) →
          ∃ a b d e, x.operator = .join (.equalsColumn a b) ∧
            (.equalsColumn a b ∈ sample.selections ∨ .equalsColumn b a ∈ sample.selections) ∧
            (Predicate.equalsColumn a b).Spans l.leafColumns r.leafColumns ∧
            l.output = .ok d ∧ a ∈ d ∧ r.output = .ok e ∧ b ∈ e := by
  obtain ⟨q, t, h, ht⟩ := returns_sample
  exact ⟨q, t, h, optimise_standard_joins canonical_sample distinctSources_sample rfl h ht⟩

theorem optimise_standard_joins_crowded :
    Recurring.crowded.Canonical ∧ Recurring.crowded.DistinctSources Recurring.catalogue ∧
      ∃ q t, Returns (optimise Recurring.catalogue Rule.standard .standard Recurring.crowded)
          .start q t ∧
        ∃ x ∈ q.preorder, x.operator = .product ∧ ∃ l r, x.inputs = [l, r] ∧
          ∃ predicate ∈ Recurring.crowded.selections,
            predicate.Spans l.leafColumns r.leafColumns := by
  have hg := Recurring.hollow_grove 30
  obtain ⟨p, _, u, q, t, returned, rest, hp, hscans, hpredicates, _⟩ :=
    Recurring.returns_straddled Rule.standard.tail .standard hg Recurring.size_grove_recurs
      (by decide) (by decide) .start
  have renewed := renewed_of_steps rest hp
  obtain ⟨_, hq⟩ := renewed.known
  have hkept : ∀ a ∈ q.predicates, a = Recurring.comparison := by
    intro a ha
    obtain ⟨b, hb, heq⟩ := exists_of_steps rest hp a ha
    obtain rfl : b = Recurring.comparison := by simpa using hpredicates.mem_iff.mp hb
    exact heq.elim id id
  obtain ⟨x, hx, ho, l, r, hi, hspans⟩ :=
    Recurring.exists_product hq (renewed.scans.trans (.of_eq hscans)) hkept
  exact ⟨Recurring.canonical_straddled hg, Recurring.distinctSources_straddled hg, q, t, returned,
    x, hx, ho, l, r, hi, _, Recurring.mem_selections_straddled hg, hspans⟩

end QueryPlan
