import QueryPlan.Proofs.PushSelects.Sunk

/-!
Pushing all selections of a plan down: when it succeeds, and what it keeps.
-/

namespace QueryPlan.PushSelects

open Planner Plan

section Success

variable {p q : Plan} {f : Floating} {s : Statistics}

theorem succeeds_settle {test : Predicate → Bool} {event : Predicate → Event}
    (hp : p.Estimated s) (hu : ∀ predicate ∈ f.taken test, ∀ c ∈ predicate.columns, s.Usable c)
    (x : Progress) : Succeeds (settle p f test event) x := by
  obtain ⟨u, reported, _⟩ := returns_forM_report (f.taken test) event x
  obtain ⟨q, v, stacked⟩ := succeeds_stackSelections hp u hu
  exact reported.bind (stacked.bind succeeds_pure)

theorem succeeds_settleCovered (hp : p.Estimated s)
    (hu : ∀ predicate ∈ f.taken fun predicate => predicate.CoveredBy s,
      ∀ c ∈ predicate.columns, s.Usable c)
    (x : Progress) : Succeeds (settleCovered p f) x :=
  (returns_of_ok hp.output_eq x).bind (succeeds_settle hp hu x)

theorem Pushed.alike {n m : Nat} {q : Plan} {g : Floating} {t : Statistics} {cs : List Column}
    (h : Pushed n p f m q g) (hp : p.Estimated s) (hq : q.Estimated t) :
    Statistics.Alike s t cs := by
  intro c _
  rw [hq.mem_iff, hp.mem_iff, h.columns hp, hq.usable, hp.usable, h.usable hp]
  exact ⟨.rfl, .rfl⟩

/-- A condition on a plan and what floats above it that the walk hands down, and under which all
that lands can be estimated. -/
structure Landable (Fit : Plan → Floating → Prop) : Prop where
  scan {r : BaseRelation} {i : NodeId} {e : Option Statistics} {f : Floating} :
    Fit ⟨.scan r, [], i, e⟩ f →
      ∀ predicate ∈ f.taken (scanTakes r), ∀ c ∈ predicate.columns, r.statistics.Usable c
  select {predicate : Predicate} {q : Plan} {i : NodeId} {e : Option Statistics} {f : Floating}
    {s : Statistics} : (Plan.mk (.select predicate) [q] i e).Estimated s →
      Fit ⟨.select predicate, [q], i, e⟩ f → Fit q (f.add i predicate)
  project {cs : List Column} {q : Plan} {i : NodeId} {e : Option Statistics} {f : Floating} :
    Fit ⟨.project cs, [q], i, e⟩ f → Fit q f
  left {op : Operator} {l r : Plan} {i : NodeId} {e : Option Statistics} {f : Floating} :
    op.arity = 2 → Fit ⟨op, [l, r], i, e⟩ f → Fit l f
  right {n m : Nat} {op : Operator} {l r l' : Plan} {i : NodeId} {e : Option Statistics}
    {f g : Floating} {s : Statistics} : op.arity = 2 → l.Estimated s →
      Fit ⟨op, [l, r], i, e⟩ f → Pushed n l f m l' g → Fit r g
  pair {n m k : Nat} {op : Operator} {l r l' r' : Plan} {i : NodeId} {e : Option Statistics}
    {f g h : Floating} {s t : Statistics} : op.arity = 2 → l.Estimated s → r.Estimated t →
      Fit ⟨op, [l, r], i, e⟩ f → Pushed n l f m l' g → Pushed m r g k r' h →
      ∀ predicate ∈ h.taken (takes ⟨op, [l, r], i, e⟩),
        ∀ c ∈ predicate.columns, (Plan.mk op [l, r] i e).Usable c

section Walk

variable {Fit : Plan → Floating → Prop}

theorem succeeds_pair {op : Operator} {l r : Plan} {i : NodeId} {e : Option Statistics}
    {t u : Statistics} (hfit : Landable Fit) (ho : op.arity = 2)
    (hp : (Plan.mk op [l, r] i e).Estimated s) (hl : l.Estimated t) (hr : r.Estimated u)
    (hf : Fit ⟨op, [l, r], i, e⟩ f)
    (ihl : ∀ {f : Floating}, Fit l f → ∀ x, Succeeds (push l f) x)
    (ihr : ∀ {f : Floating}, Fit r f → ∀ x, Succeeds (push r f) x) (x : Progress) :
    Succeeds (do
      let (l, floating) ← push l f
      let (r, floating) ← push r floating
      settleCovered (← addNode op [l, r]) floating) x := by
  obtain ⟨⟨l', g⟩, y, hy⟩ := ihl (hfit.left ho hf) x
  have left := pushed_of_returns hy
  obtain ⟨⟨r', h⟩, z, hz⟩ := ihr (hfit.right ho hl hf left) y
  have right := pushed_of_returns hz
  obtain ⟨t', hl'⟩ := left.estimated hl
  obtain ⟨u', hr'⟩ := right.estimated hr
  obtain ⟨b, added⟩ := added_binary z.issued hp hl hr hl' hr' (left.alike hl hl')
    (right.alike hr hr')
  obtain ⟨v, hv⟩ := added.binary hl' hr' ho
  have hcols := Pushed.columns_pair ho left right hl hr added hv.output_eq
  have htest := covered_eq_takes (i := i) (e := e) ho hcols
  refine hy.bind (hz.bind ((Returns.addNode added).bind (succeeds_settleCovered hv ?_ _)))
  intro predicate hm c hc
  have hu := hfit.pair ho hl hr hf left right predicate (htest ▸ hm) c hc
  rw [hv.usable]
  cases added
  rw [usable_binary ho] at hu ⊢
  rwa [left.usable hl, right.usable hr, left.columns hl]

theorem succeeds_push (hfit : Landable Fit) (hp : p.Estimated s) (hf : Fit p f) (x : Progress) :
    Succeeds (push p f) x := by
  induction hp generalizing f x with
  | scan r i => exact succeeds_settle (.scan r i) (hfit.scan hf) x
  | @select q s t predicate i hq he ih =>
      have he' := Estimated.select i hq he
      obtain ⟨⟨q', f'⟩, y, h⟩ := ih (hfit.select he' hf) x
      have pushed := pushed_of_returns h
      obtain ⟨u, hu⟩ := pushed.estimated hq
      apply h.bind
      obtain gone | ⟨g, found⟩ := Option.eq_none_or_eq_some (f'.remove? i)
      · simp only [gone]
        exact succeeds_pure
      · obtain ⟨p, hp⟩ := added_unary y.issued he' hq hu (pushed.alike hq hu)
        simp only [found]
        apply (returns_of_report _ y).bind
        exact Returns.bind (.addNode hp) succeeds_pure
  | @project q s t cs i hq he ih =>
      obtain ⟨⟨q', f'⟩, y, h⟩ := ih (hfit.project hf) x
      have pushed := pushed_of_returns h
      obtain ⟨u, hu⟩ := pushed.estimated hq
      obtain ⟨p, hp⟩ := added_unary y.issued (.project i hq he) hq hu (pushed.alike hq hu)
      exact h.bind ((Returns.addNode hp).bind succeeds_pure)
  | product i hl hr ihl ihr =>
      exact succeeds_pair hfit rfl (.product i hl hr) hl hr hf ihl ihr x
  | join i hl hr he ihl ihr =>
      exact succeeds_pair hfit rfl (.join i hl hr he) hl hr hf ihl ihr x

/-- Nothing floats above a plan that has been pushed into with nothing. -/
theorem succeeds_run_of_landable (hfit : Landable Fit) (hp : p.Estimated s) (hf : Fit p [])
    (x : Progress) : Succeeds (run p) x := by
  obtain ⟨⟨q, g⟩, u, h⟩ := succeeds_push hfit hp hf x
  obtain rfl : g = [] := (pushed_of_returns h).eq_nil
  exact h.bind succeeds_pure

end Walk

/-- A product or join can take all that it covers, if no blank column is compared. -/
theorem usable_of_takes {op : Operator} {l r : Plan} {i : NodeId} {e : Option Statistics}
    {t : Statistics} {predicate : Predicate} (ho : op.arity = 2) (hl : l.Estimated s)
    (hr : r.Estimated t) (hd : (Plan.mk op [l, r] i e).DistinctColumns)
    (ht : takes ⟨op, [l, r], i, e⟩ predicate)
    (hb : ∀ c ∈ predicate.columns, ¬ (Plan.mk op [l, r] i e).Blank c) :
    ∀ c ∈ predicate.columns, (Plan.mk op [l, r] i e).Usable c := by
  intro c hc
  have hnb := hb c hc
  rw [blank_binary (relation?_binary ho)] at hnb
  have hcols : c ∈ l.columns ++ r.columns := columns_binary ho ▸ columns_subset_of_takes ht hc
  rw [usable_binary ho, ← hl.usable, ← hr.usable, hl.usable_iff hd.binary.1,
    hr.usable_iff hd.binary.2.1]
  exact (usable_sides hl hr hd.binary.2.2).mpr ⟨hcols, hnb⟩

/-- Where no two relations share a column, all that lands can be estimated if no blank column is
compared. -/
theorem landable_sound : Landable fun p f => p.DistinctColumns ∧ p.Sound f.predicates where
  scan hf predicate hm c hc := by
    obtain ⟨hd, hs⟩ := hf
    obtain ⟨hm, ht⟩ := Floating.mem_taken.mp hm
    refine (Estimated.usable_iff (.scan _ 0) hd).mpr ⟨?_, ?_⟩
    · exact columns_subset_of_scanTakes ht hc
    · exact hs predicate (List.mem_append_left _ hm) c hc
  select _ hf := by
    rw [Floating.predicates_add]
    exact ⟨hf.1.unary, hf.2.unary rfl⟩
  project hf := ⟨hf.1.unary, by simpa [Operator.predicate?] using hf.2.unary rfl⟩
  left ho hf := ⟨hf.1.binary.1, hf.2.left (relation?_binary ho)⟩
  right ho hl hf left :=
    ⟨hf.1.binary.2.1, (hf.2.right (relation?_binary ho)).mono fun _ hm =>
      List.mem_append_left _ (left.floating_subset hl hm)⟩
  pair ho hl hr hf left right predicate hm := by
    obtain ⟨hm, ht⟩ := Floating.mem_taken.mp hm
    refine usable_of_takes ho hl hr hf.1 ht (hf.2 predicate ?_)
    have hg (hx : predicate ∈ _) := left.floating_subset hl hx
    have hh := right.floating_subset hr hm
    simp only [predicates_binary, List.mem_append] at hg hh ⊢
    tauto

/-- What floats above a plan comes to stand only where its columns are in sight on the whole way
up, and they can be divided by at the top. -/
structure Sighted (p : Plan) (f : Floating) : Prop where
  apart : f.Apart p.ids
  distinct : p.DistinctOutputs
  allClear : AllClear p
  clear : ∀ predicate ∈ f.predicates, Clear p predicate
  usable : ∀ predicate ∈ f.predicates, absorbs p predicate → ∀ c ∈ predicate.columns, p.Usable c

/-- As long as columns stay in sight, all that lands can be estimated, even if relations share
columns. -/
theorem landable_sighted : Landable Sighted where
  scan hf predicate hm := by
    obtain ⟨hm, ht⟩ := Floating.mem_taken.mp hm
    refine hf.usable predicate hm ?_
    rwa [absorbs_scan]
  select hp hf := by
    have hu := hf.usable
    have ha := hf.apart
    obtain ⟨hc, hs⟩ := eachSelection_select.mp hf.allClear
    rw [absorbs_unary rfl] at hu
    rw [ids_unary] at ha
    refine ⟨ha.add, hf.distinct.unary, hs, Clear.add hf.clear hc, fun x hx hax c hcx => ?_⟩
    rw [Floating.predicates_add, List.mem_append, List.mem_singleton] at hx
    obtain hx | rfl := hx
    · exact hu x hx hax c hcx
    · cases hp with
      | select _ hq he => exact hq.usable.mp (Statistics.select_ok_iff.mp ⟨_, he⟩ c hcx)
  project hf := by
    have hu := hf.usable
    rw [absorbs_unary rfl] at hu
    exact ⟨hf.apart.mono (.refl _) (by simp), hf.distinct.unary,
      eachSelection_project.mp hf.allClear, fun x hx => (hf.clear x hx).unary,
      fun x hx hax c hc => (hu x hx hax c hc).2⟩
  left ho hf := by
    have ha := hf.apart
    rw [ids_binary] at ha
    refine ⟨ha.left, hf.distinct.left, (eachSelection_binary.mp hf.allClear).1,
      fun x hx => (hf.clear x hx).left, fun x hx hax c hc => ?_⟩
    have hu := hf.usable x hx (by simp [absorbs_binary, hax]) c hc
    rw [usable_binary ho] at hu
    exact hu.resolve_right fun hr => hr.1 ((hf.clear x hx).left.top hax hc)
  right ho hl hf left := by
    have ha := hf.apart
    rw [ids_binary] at ha
    have rest := (left.sunk hl ha.left).rest
    have hcr := Clear.rest hf.clear
    rw [← rest] at hcr
    refine ⟨ha.right.mono (left.sublist hl ha.left) (.refl _), hf.distinct.right,
      (eachSelection_binary.mp hf.allClear).2, hcr, fun x hx hax c hc => ?_⟩
    have hm := hx
    rw [rest, Floating.mem_predicates_untaken] at hm
    have hu := hf.usable x hm.1 (by simp [absorbs_binary, hax]) c hc
    rw [usable_binary ho, ← hl.usable] at hu
    -- the left input cannot have a column in sight that the right one shows
    refine (hu.resolve_left fun hul => ?_).2
    exact hf.distinct.disjoint ho (hl.mem_iff.mp hul.mem) ((hcr x hx).top hax hc)
  pair ho hl hr hf left right predicate hm := by
    have ha := hf.apart
    rw [ids_binary] at ha
    have hgl := left.sublist hl ha.left
    have hgr := right.sublist hr (ha.right.mono hgl (.refl _))
    obtain ⟨hm, ht⟩ := Floating.mem_taken.mp hm
    refine hf.usable predicate (((hgr.trans hgl).map _).subset hm) ?_
    simp [absorbs_binary, ht]

end Success

section Run

variable {p q : Plan} {s t : Progress} {e : Statistics} {o : Option (List Column)} {db : Database}

theorem pushed_of_run (h : Returns (run p) s q t) : Pushed s.issued p [] t.issued q [] := by
  obtain ⟨⟨r, g⟩, u, pushed, h₁⟩ := returns_bind.mp h
  dsimp only at h₁
  split at h₁
  · rename_i hg
    obtain ⟨rfl, rfl⟩ := returns_pure.mp h₁
    obtain rfl : g = [] := List.isEmpty_iff.mp hg
    exact pushed_of_returns pushed
  · exact (returns_throw.mp h₁).elim

theorem renewed_of_run (h : Returns (run p) s q t) (hp : p.Estimated e) :
    Renewed s.issued p t.issued q :=
  ⟨(pushed_of_run h).le, (pushed_of_run h).estimated hp, .of_eq ((pushed_of_run h).scans hp)⟩

theorem predicates_of_untangled (h : Returns (run p) s q t) (hp : p.Estimated e)
    (hu : Untangled p) : q.predicates.Perm p.predicates := by
  have hs := (pushed_of_run h).predicates_add hp hu (List.forall_mem_nil _)
  simpa [Floating.predicates] using hs

theorem predicates_of_run (h : Returns (run p) s q t) (hp : p.Estimated e) (hi : p.ids.Nodup) :
    q.predicates.Perm p.predicates :=
  predicates_of_untangled h hp (untangled_of_nodup hp hi)

theorem conserved_of_run (h : Returns (run p) s q t) (hp : p.Estimated e) (hi : p.ids.Nodup) :
    Conserved s.issued p t.issued q :=
  ⟨Predicate.forms_perm (predicates_of_run h hp hi), (pushed_of_run h).ids_le hp⟩

theorem rooted_of_run (h : Returns (run p) s q t) (hp : p.Estimated e) (hr : Rooted o p) :
    Rooted o q :=
  (pushed_of_run h).rooted hp hr

/-- Nothing is filtered out that should not be, nor left in. -/
theorem rows_perm_of_run (h : Returns (run p) s q t) (hp : p.Estimated e) (hi : p.ids.Nodup)
    (ho : p.DistinctOutputs) (hc : AllClear p) (hdb : p.Fitted db) :
    (q.rows db).Perm (p.rows db) := by
  have hs := ((pushed_of_run h).sunk hp hi).rows_perm hdb ho hc (List.forall_mem_nil _)
  simpa [Floating.taken] using hs

theorem faithful_of_run (h : Returns (run p) s q t) (hp : p.Estimated e) (hi : p.ids.Nodup)
    (hd : p.DistinctColumns) (hdb : p.Fitted db) : Faithful db p q where
  columns c := by rw [(pushed_of_run h).columns hp]
  rows := rows_perm_of_run h hp hi (hp.distinctOutputs hd) (allClear_of_distinct hp hd) hdb

theorem succeeds_run (hp : p.Estimated e) (hd : p.DistinctColumns) (x : Progress) :
    Succeeds (run p) x :=
  succeeds_run_of_landable landable_sound hp ⟨hd, hp.sound hd⟩ x

theorem succeeds_run_of_clear (hp : p.Estimated e) (hi : p.ids.Nodup) (ho : p.DistinctOutputs)
    (hc : AllClear p) (x : Progress) : Succeeds (run p) x :=
  succeeds_run_of_landable landable_sighted hp
    ⟨hi, ho, hc, List.forall_mem_nil _, List.forall_mem_nil _⟩ x

end Run

end QueryPlan.PushSelects
