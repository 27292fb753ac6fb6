import QueryPlan.Proofs.ReorderProducts.Run

/-!
Reordering never fails. A column that has not been moved stays in sight where it
was, so a selection that is not detached finds its columns again; what is detached
can be put back above the whole chain.
-/

namespace QueryPlan.ReorderProducts

open Planner Plan

/-- Which of the plans have the column in sight. -/
def sight (a : Column) (ps : List Plan) : List Bool :=
  ps.map fun p => decide (a ∈ p.columns)

theorem sight_cons {a : Column} {p q : Plan} {ps qs : List Plan} :
    sight a (p :: ps) = sight a (q :: qs) ↔
      (a ∈ p.columns ↔ a ∈ q.columns) ∧ sight a ps = sight a qs := by
  simp only [sight, List.map_cons, List.cons.injEq, decide_eq_decide]

theorem sight_append_singleton {a : Column} {p q : Plan} {ps qs : List Plan}
    (h : sight a (ps ++ [p]) = sight a (qs ++ [q])) :
    (a ∈ p.columns ↔ a ∈ q.columns) ∧ sight a ps = sight a qs := by
  simp only [sight, List.map_append, List.map_cons, List.map_nil] at h
  obtain ⟨hs, hp⟩ := List.append_inj' h rfl
  exact ⟨decide_eq_decide.mp (List.cons.inj hp).1, hs⟩

theorem Exchanged.sight_eq {c c' : Chain} {p q : Plan} {a : Column} (h : Exchanged c p q c')
    (hk : Known (p :: c.waiting)) (ha : a ∉ c'.moved) :
    sight a (q :: c'.waiting) = sight a (p :: c.waiting) := by
  cases h with
  | same => rfl
  | @traded _ k s t found received given =>
      obtain ⟨⟨_, hp⟩, hw⟩ := known_cons.mp hk
      obtain ⟨_, hq⟩ := hw q (List.mem_of_getElem? found)
      obtain rfl := Except.ok.inj (hp.output_eq.symm.trans given)
      obtain rfl := Except.ok.inj (hq.output_eq.symm.trans received)
      simp only [List.mem_append, not_or, hp.columns_eq, hq.columns_eq] at ha
      obtain ⟨⟨_, haq⟩, hap⟩ := ha
      refine sight_cons.mpr ⟨iff_of_false haq hap, ?_⟩
      have hk : (c.waiting.map fun x => decide (a ∈ x.columns))[k]? = some false := by
        simp [found, haq]
      obtain ⟨_, hg⟩ := List.getElem?_eq_some_iff.mp hk
      rw [sight, List.map_set, decide_eq_false hap, ← hg, List.set_getElem_self, sight]

/-- A column that has not been moved stays in sight where it was. -/
theorem Reordered.sight_eq {n m : Nat} {p q : Plan} {c c' : Chain} {a : Column}
    (h : Reordered n p c m q c') (hk : Known (p :: c.waiting)) (ha : a ∉ c'.moved) :
    sight a (q :: c'.waiting) = sight a (p :: c.waiting) := by
  induction h with
  | leaf _ => rfl
  | kept _ added ih =>
      obtain ⟨⟨_, hs⟩, hw⟩ := known_cons.mp hk
      cases added
      cases hs with
      | select _ hq _ => exact ih (known_cons.mpr ⟨⟨_, hq⟩, hw⟩) ha
  | detached _ _ ih =>
      obtain ⟨⟨_, hs⟩, hw⟩ := known_cons.mp hk
      cases hs with
      | select _ hq _ => exact ih (known_cons.mpr ⟨⟨_, hq⟩, hw⟩) ha
  | project _ added ih =>
      obtain ⟨⟨_, hs⟩, hw⟩ := known_cons.mp hk
      cases added
      cases hs with
      | project _ hq _ =>
          obtain ⟨hi, hr⟩ := sight_cons.mp (ih (known_cons.mpr ⟨⟨_, hq⟩, hw⟩) ha)
          refine sight_cons.mpr ⟨?_, hr⟩
          simp only [Plan.columns, List.mem_filter, hi]
  | @product _ l r l' own left right _ rest _ _ c c' c₁ c₂ input last onLeft onRight added ih =>
      cases added
      have hall := hk.product.perm perm_of_operands
      have hl := input.known hall
      have ha₁ : a ∉ c₁.moved := fun hm => ha (onRight.moved_subset hm)
      have hi := ih hall fun hm => ha₁ (onLeft.moved_subset hm)
      rw [last] at hl hi
      obtain ⟨hil, hiw⟩ := sight_cons.mp hi
      obtain ⟨hir, hiw⟩ := sight_append_singleton hiw
      have hkl : Known (l' :: rest) := fun x hx => hl x (by simp at hx ⊢; tauto)
      have hkr := (known_cons.mp (hkl.perm onLeft.perm)).2
      have hko : Known (own :: c₁.waiting) := known_cons.mpr ⟨hl own (by simp), hkr⟩
      obtain ⟨hl₁, hw₁⟩ := sight_cons.mp (onLeft.sight_eq hkl ha₁)
      obtain ⟨hr₂, hw₂⟩ := sight_cons.mp (onRight.sight_eq hko ha)
      refine sight_cons.mpr ⟨?_, hw₂.trans (hw₁.trans hiw)⟩
      simp only [Plan.columns, List.mem_append, hl₁, hr₂, hil, hir]

theorem trade?_ok {p : Plan} {waiting : List Plan} (h : Known (p :: waiting)) :
    ∃ o, trade? p waiting = .ok o := by
  obtain ⟨⟨s, hp⟩, hw⟩ := known_cons.mp h
  have hc : ∃ ns,
      (waiting.mapM fun q => return (← q.output).tuples) = (.ok ns : Except Error _) := by
    clear h
    induction waiting with
    | nil => exact ⟨[], rfl⟩
    | cons q waiting ih =>
        obtain ⟨⟨t, hq⟩, hw⟩ := known_cons.mp hw
        obtain ⟨ns, hns⟩ := ih hw
        refine ⟨t.tuples :: ns, ?_⟩
        simp only [List.mapM_cons, hq.output_eq, hns]
        rfl
  obtain ⟨ns, hns⟩ := hc
  exact ⟨_, bind_eq_ok.mpr ⟨s, hp.output_eq, bind_eq_ok.mpr ⟨ns, hns, rfl⟩⟩⟩

theorem succeeds_exchange {c : Chain} {p : Plan} (h : Known (p :: c.waiting))
    (event : Operator → Operator → Event) (x : Progress) : Succeeds (c.exchange p event) x := by
  obtain ⟨o, ho⟩ := trade?_ok h
  obtain ⟨⟨s, hp⟩, hw⟩ := known_cons.mp h
  apply (returns_of_ok ho x).bind
  cases o with
  | none => exact succeeds_pure
  | some trade =>
      obtain ⟨k, found, _⟩ := trade?_eq_ok ho
      obtain ⟨t, hq⟩ := hw _ (List.mem_of_getElem? found)
      apply (returns_of_report _ x).bind
      refine (returns_of_ok (mark_eq_ok.mpr ⟨t, hq.output_eq, rfl⟩) _).bind ?_
      exact (returns_of_ok (mark_eq_ok.mpr ⟨s, hp.output_eq, rfl⟩) _).bind succeeds_pure

theorem succeeds_placeRight {left own : Plan} {c : Chain} (hk : Known (left :: c.waiting))
    (ho : ∃ s, own.Estimated s) (x : Progress) : Succeeds (placeRight left own c) x := by
  obtain ⟨⟨s, hl⟩, hw⟩ := known_cons.mp hk
  have hkr : Known (own :: c.waiting) := known_cons.mpr ⟨ho, hw⟩
  obtain ⟨⟨right, outer⟩, u, hr⟩ := succeeds_exchange hkr .swappedRight x
  obtain ⟨⟨t, ht⟩, _⟩ := known_cons.mp (hkr.perm (returns_exchange hr).1.perm)
  obtain ⟨p, hp⟩ := added_product u.issued hl ht
  exact hr.bind ((Returns.addNode hp).bind succeeds_pure)

theorem succeeds_place {l r own : Plan} {c : Chain} {rest : List Plan}
    (last : c.waiting = rest ++ [own]) (h : Known (l :: c.waiting)) (x : Progress) :
    Succeeds (place l r c) x := by
  have hkl : Known (l :: rest) := fun q hq => h q (by rw [last]; simp at hq ⊢; tauto)
  have hko := h own (by simp [last])
  rw [place_eq last]
  split
  · obtain ⟨⟨left, c₁⟩, u, hl⟩ := succeeds_exchange
      (c := { c with waiting := rest, deepestAhead := false }) hkl .swappedLeft x
    exact hl.bind (succeeds_placeRight (hkl.perm (returns_exchange hl).1.perm) hko u)
  · exact succeeds_placeRight hkl hko x

/-- The predicates of a plan compare no column that is blank in one of the plans. -/
def SoundAmong (p : Plan) (ps : List Plan) : Prop :=
  ∀ predicate ∈ p.predicates, ∀ a ∈ predicate.columns, ∀ r ∈ total Plan.scans ps,
    a ∈ r.statistics → r.statistics.Usable a

/-- A column in sight is usable if no plan at hand has it blank. -/
theorem usable_of_soundAmong {p : Plan} {s : Statistics} {ps : List Plan} {a : Column}
    (hp : p.Estimated s) (hd : (total Plan.leafColumns (p :: ps)).Nodup) (ha : a ∈ p.columns)
    (hs : ∀ r ∈ total Plan.scans (p :: ps), a ∈ r.statistics → r.statistics.Usable a) :
    s.Usable a := by
  rw [total_cons, Multiset.nodup_add] at hd
  refine (hp.usable_iff hd.1).mpr ⟨ha, fun hb => ?_⟩
  obtain ⟨r, hr, har, hn⟩ := hb
  refine hn (hs r ?_ har)
  rw [total_cons]
  exact Multiset.mem_add.mpr (.inl hr)

theorem succeeds_reorder {p : Plan} {s : Statistics} {c : Chain} (hp : p.Estimated s)
    (hu : Unbroken p.chain) (hm : c.moved = []) (hk : Known c.waiting)
    (hd : (total Plan.leafColumns (p :: c.waiting)).Nodup) (hs : SoundAmong p (p :: c.waiting))
    (x : Progress) : Succeeds (reorder p c) x := by
  induction hp generalizing c x with
  | scan r i => exact succeeds_pure
  | join i hl hr he => exact succeeds_pure
  | @project q s t cs i hq he ih =>
      have hcons : total Plan.scans (⟨.project cs, [q], i, some t⟩ :: c.waiting) =
          total Plan.scans (q :: c.waiting) := by simp [total_cons, Operator.relation?]
      rw [total_leafColumns hcons] at hd
      simp only [SoundAmong, predicates_unary, Operator.predicate?, Option.toList_none,
        List.nil_append, hcons] at hs
      obtain ⟨⟨q', c'⟩, u, h⟩ := ih hu.of_cons hm hk hd hs x
      have walk := reordered_of_returns h hq
      obtain ⟨v, hv⟩ := (known_cons.mp (walk.known (known_cons.mpr ⟨⟨s, hq⟩, hk⟩))).1
      have hc : ∀ a ∈ cs, a ∈ v := by
        intro a ha
        rw [hv.mem_iff, (walk.still_of_unbroken hu hm).2, ← hq.mem_iff]
        exact (Statistics.project_eq_ok.mp he).1 a ha
      obtain ⟨p, hp⟩ := added_project u.issued hv hc
      exact h.bind (Returns.bind (.addNode hp) succeeds_pure)
  | @select q s t predicate i hq he ih =>
      have hcons : total Plan.scans (⟨.select predicate, [q], i, some t⟩ :: c.waiting) =
          total Plan.scans (q :: c.waiting) := by simp [total_cons, Operator.relation?]
      rw [total_leafColumns hcons] at hd
      simp only [SoundAmong, predicates_unary, Operator.predicate?, Option.toList_some,
        List.singleton_append, List.forall_mem_cons, hcons] at hs
      obtain ⟨⟨q', c'⟩, u, h⟩ := ih hu.of_cons hm hk hd hs.2 x
      have walk := reordered_of_returns h hq
      have hkq := known_cons.mpr ⟨⟨s, hq⟩, hk⟩
      obtain ⟨v, hv⟩ := (known_cons.mp (walk.known hkq)).1
      apply h.bind
      by_cases ht : predicate.columns.any (· ∈ c'.moved)
      · simp only [ht, if_true]
        exact (returns_of_report _ u).bind succeeds_pure
      · have hv' : ∀ a ∈ predicate.columns, v.Usable a := by
          intro a ha
          have hn : a ∉ c'.moved := fun h => ht (List.any_eq_true.mpr ⟨a, ha, decide_eq_true h⟩)
          have hin := (sight_cons.mp (walk.sight_eq hkq hn)).1.mpr (hq.covered_of_select he ha)
          refine usable_of_soundAmong hv ?_ hin fun r hr => hs.1 a ha r (walk.scans ▸ hr)
          exact total_leafColumns walk.scans ▸ hd
        obtain ⟨p, hp⟩ := added_select u.issued hv hv'
        simp only [ht]
        exact Returns.bind (.addNode hp) succeeds_pure
  | @product l r s t i hl hr ihl ihr =>
      have hcons : total Plan.scans (l :: (c.waiting ++ [r])) =
          total Plan.scans (⟨.product, [l, r], i, some (s.product t)⟩ :: c.waiting) := by
        rw [total_perm perm_of_operands]
        simp [total_cons, Operator.relation?, ← Multiset.coe_add, add_assoc]
      have hkr : Known (c.waiting ++ [r]) :=
        List.forall_mem_append.mpr ⟨hk, known_cons.mpr ⟨⟨t, hr⟩, List.forall_mem_nil _⟩⟩
      have hsl : SoundAmong l (l :: (c.waiting ++ [r])) := by
        intro predicate hm
        rw [hcons]
        exact hs predicate (by simp [hm])
      obtain ⟨⟨l', c'⟩, u, h⟩ := ihl (c := { c with waiting := c.waiting ++ [r] }) hu.of_cons hm hkr
        (total_leafColumns hcons ▸ hd) hsl x
      have walk := reordered_of_returns h hl
      have hkl := walk.known (known_cons.mpr ⟨⟨s, hl⟩, hkr⟩)
      obtain ⟨rest, own, last⟩ : ∃ rest own, c'.waiting = rest ++ [own] := by
        refine (List.eq_nil_or_concat' c'.waiting).resolve_left fun hn => ?_
        simpa [hn] using walk.length_eq
      exact h.bind (succeeds_place last hkl u)

theorem succeeds_walk {p : Plan} {s : Statistics} (hp : p.Estimated s) (hu : Unbroken p.chain)
    (hd : p.DistinctColumns) (x : Progress) : Succeeds (reorder p .start) x := by
  refine succeeds_reorder hp hu rfl (fun _ hm => absurd hm List.not_mem_nil) ?_
    (fun predicate hm a ha r hr har => ?_) x
  · simpa [total, Chain.start, DistinctColumns] using hd
  · by_contra hn
    exact hp.sound hd predicate hm a ha ⟨r, by simpa [total, Chain.start] using hr, har, hn⟩

/-- What has been detached can be put back anywhere above the chain. -/
theorem Walked.usable {n m : Nat} {p q : Plan} {detached : List Predicate} {s t : Statistics}
    (h : Walked n p detached m q) (hp : p.Estimated s) (hu : Unbroken p.chain)
    (hd : p.DistinctColumns) (hq : q.Estimated t) :
    ∀ predicate ∈ detached, ∀ a ∈ predicate.columns, t.Usable a := by
  intro predicate hm a ha
  have hmp : predicate ∈ p.predicates := by
    rw [← Multiset.mem_coe, ← h.predicates]
    exact Multiset.mem_add.mpr (.inr hm)
  rw [hq.usable_iff (hd.of_scans h.scans), blank_congr h.scans, h.columns hu]
  exact ⟨h.covered hp hu predicate hm ha, hp.sound hd predicate hmp a ha⟩

theorem succeeds_restore {p : Plan} {s : Statistics} {predicates : List Predicate}
    (hp : p.Estimated s) (ho : p.operator.columns? = none)
    (hu : ∀ predicate ∈ predicates, ∀ a ∈ predicate.columns, s.Usable a) (x : Progress) :
    Succeeds (restore p predicates) x := by
  cases predicates with
  | nil => exact succeeds_pure
  | cons predicate predicates =>
      cases hp with
      | scan r i => exact succeeds_stackSelections (.scan r i) x hu
      | select i hq he => exact succeeds_stackSelections (.select i hq he) x hu
      | project _ _ _ => cases ho
      | product i hl hr => exact succeeds_stackSelections (.product i hl hr) x hu
      | join i hl hr he => exact succeeds_stackSelections (.join i hl hr he) x hu

theorem succeeds_restore_under {n : Nat} {p q : Plan} {cs : List Column} {s : Statistics}
    {predicates : List Predicate} (hp : Added n (.project cs) [q] p) (hq : q.Estimated s)
    (hc : ∀ a ∈ cs, a ∈ s)
    (hu : ∀ predicate ∈ predicates, ∀ a ∈ predicate.columns, s.Usable a) (x : Progress) :
    Succeeds (restore p predicates) x := by
  cases hp
  cases predicates with
  | nil => exact succeeds_pure
  | cons predicate predicates =>
      obtain ⟨r, y, h⟩ := succeeds_stackSelections hq x hu
      have stacked := stacked_of_returns h
      obtain ⟨t, ht⟩ := stacked.estimated hq
      have hct : ∀ a ∈ cs, a ∈ t := by
        intro a ha
        rw [ht.mem_iff, stacked.columns, ← hq.mem_iff]
        exact hc a ha
      obtain ⟨p, hp⟩ := added_project y.issued ht hct
      exact (returns_of_ok rfl x).bind (h.bind ⟨p, _, .addNode hp⟩)

/-- A plan without shared columns can be reordered, if only a projection at the root stands above
a product of its chain. -/
theorem succeeds_run {p : Plan} {s : Statistics} (hp : p.Estimated s)
    (hu : Unbroken p.chain.tail) (hd : p.DistinctColumns) (x : Progress) :
    Succeeds (run p) x := by
  by_cases hb : p.operator.columns? = none
  · have hup := hp.unbroken hb hu
    obtain ⟨⟨r, c⟩, u, h⟩ := succeeds_walk hp hup hd x
    have walked := walked_of_returns h hp
    obtain ⟨t, hr⟩ := walked.known hp
    exact h.bind (succeeds_restore hr (walked.bare hup hb) (walked.usable hp hup hd hr) u)
  · cases hp with
    | scan _ _ | select _ _ _ | product _ _ _ | join _ _ _ _ => exact absurd rfl hb
    | @project q _ s cs i hq he =>
        obtain ⟨⟨r, c⟩, u, h⟩ := succeeds_walk hq hu hd.unary x
        have walked := walked_of_returns h hq
        obtain ⟨t, hr⟩ := walked.known hq
        have hc : ∀ a ∈ cs, a ∈ t := by
          intro a ha
          rw [hr.mem_iff, walked.columns hu, ← hq.mem_iff]
          exact (Statistics.project_eq_ok.mp he).1 a ha
        obtain ⟨p, hp⟩ := added_project u.issued hr hc
        have hwalk : Returns (reorder ⟨.project cs, [q], i, some s⟩ .start) x (p, c)
            ⟨u.issued + 1, u.events⟩ :=
          returns_bind.mpr ⟨_, _, h, returns_bind.mpr ⟨p, _, .addNode hp,
            returns_pure.mpr ⟨rfl, rfl⟩⟩⟩
        have husable := walked.usable hq hu hd.unary hr
        exact hwalk.bind (succeeds_restore_under hp hr hc husable _)

end QueryPlan.ReorderProducts
