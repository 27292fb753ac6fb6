import QueryPlan.Proofs.Consistent
import QueryPlan.Proofs.FuseJoins.Fused

/-!
Fusing all joins of a plan: when it succeeds, and what it keeps. Wherever projections,
selections and earlier joins stand, the fused plan has the same columns in the same
order and returns the same rows.
-/

namespace QueryPlan.FuseJoins

open Planner Plan

theorem succeeds_cheapest {s : Statistics} {candidates : Floating}
    (h : ∀ e ∈ candidates, ∃ t, s.select e.predicate = .ok t) (x : Progress) :
    Succeeds (cheapest s candidates) x := by
  unfold cheapest
  generalize (none : Option (Floating.Entry × Count)) = best
  induction candidates generalizing best x with
  | nil => exact succeeds_pure
  | cons e candidates ih =>
      rw [List.forall_mem_cons] at h
      obtain ⟨t, ht⟩ := h.1
      rw [List.foldlM_cons]
      refine Succeeds.bind ?_ fun next y _ => ih h.2 y next
      refine (returns_of_ok ht x).bind ((returns_of_report _ x).bind ?_)
      cases best with
      | none => exact succeeds_pure
      | some _ => exact succeeds_pure

theorem covered_of_links {predicate : Predicate} {s t : Statistics} (h : predicate.Links s t) :
    ∀ c ∈ predicate.columns, c ∈ s ∨ c ∈ t := by
  cases predicate with
  | equalsValue c v => exact h.elim
  | equalsColumn l r =>
      simp only [Predicate.Links] at h
      simp only [Predicate.columns, List.forall_mem_cons]
      obtain h | h := h
      · exact ⟨.inl h.1, .inr h.2, List.forall_mem_nil _⟩
      · exact ⟨.inr h.2, .inl h.1, List.forall_mem_nil _⟩

theorem links_congr {predicate : Predicate} {s t s' t' : Statistics} (hs : ∀ c, c ∈ s' ↔ c ∈ s)
    (ht : ∀ c, c ∈ t' ↔ c ∈ t) : predicate.Links s' t' ↔ predicate.Links s t := by
  cases predicate with
  | equalsValue c v => rfl
  | equalsColumn l r => simp only [Predicate.Links, hs, ht]

/-- A linking equation, turned, has its sides where the join looks for them. -/
theorem joinSides_of_links {predicate : Predicate} {s t : Statistics} (h : predicate.Links s t)
    (hd : ∀ c ∈ s, c ∉ t) :
    ∃ c d, Statistics.JoinSides s (turned predicate s) c d ∧ c ∈ s ∧ d ∈ t ∧
      c ∈ predicate.columns ∧ d ∈ predicate.columns := by
  cases predicate with
  | equalsValue c v => exact h.elim
  | equalsColumn l r =>
      obtain ⟨hl, hr⟩ | ⟨hr, hl⟩ := h
      · refine ⟨l, r, .inl ⟨?_, hl⟩, hl, hr, by simp [Predicate.columns]⟩
        exact if_pos hl
      · refine ⟨r, l, .inl ⟨?_, hr⟩, hr, hl, by simp [Predicate.columns]⟩
        exact if_neg fun hm => hd l hm hl

theorem succeeds_pick {p l r : Plan} {s a b : Statistics} {f : Floating} (hp : p.Estimated s)
    (hl : l.Estimated a) (hr : r.Estimated b)
    (hf : ∀ e ∈ f, e.predicate.Links a b → ∃ t, s.select e.predicate = .ok t) (x : Progress) :
    Succeeds (pick p l r f) x := by
  have hc : ∀ e ∈ f.filter fun e => e.predicate.Links a b, ∃ t, s.select e.predicate = .ok t := by
    intro e he
    obtain ⟨hm, hlinks⟩ := List.mem_filter.mp he
    exact hf e hm (of_decide_eq_true hlinks)
  have hrest (y : Progress) : Succeeds (do
      return (← cheapest s (f.filter fun e => e.predicate.Links a b)).map Prod.fst) y := by
    obtain ⟨o, z, h⟩ := succeeds_cheapest hc y
    exact h.bind succeeds_pure
  refine (returns_of_ok hp.output_eq x).bind ((returns_of_ok hl.output_eq x).bind
    ((returns_of_ok hr.output_eq x).bind ?_))
  dsimp only
  split
  · exact (returns_of_report _ x).bind (hrest _)
  · exact hrest x

theorem succeeds_joined {predicate : Predicate} {l r : Plan} {s t : Statistics}
    (hl : l.Estimated s) (hr : r.Estimated t) (hlinks : predicate.Links s t)
    (hd : ∀ c ∈ s, c ∉ t) (hs : ∀ c ∈ predicate.columns, c ∈ s → s.Usable c)
    (ht : ∀ c ∈ predicate.columns, c ∈ t → t.Usable c) (x : Progress) :
    Succeeds (joined predicate l r) x := by
  obtain ⟨c, d, hj, hc, hdt, hcp, hdp⟩ := joinSides_of_links hlinks hd
  obtain ⟨p, hp⟩ := added_join x.issued hl hr hj (hs c hcp hc) (ht d hdp hdt)
  refine (returns_of_ok hl.output_eq x).bind ((returns_of_report _ x).bind ?_)
  exact ⟨p, _, .addNode hp⟩

theorem Fused.alike {n m : Nat} {p q : Plan} {f g : Floating} {s t : Statistics} {cs : List Column}
    (h : Fused n p f m q g) (hp : p.Estimated s) (hq : q.Estimated t) (hd : p.DistinctColumns) :
    Statistics.Alike s t cs :=
  hp.alike hq hd (.of_eq h.scans) fun c _ => by rw [h.columns]

theorem Fused.usable {n m : Nat} {p q : Plan} {f g : Floating} {s t : Statistics} {c : Column}
    (h : Fused n p f m q g) (hp : p.Estimated s) (hq : q.Estimated t) (hd : p.DistinctColumns)
    (hb : ¬ p.Blank c) (hc : c ∈ t) : t.Usable c := by
  obtain ⟨hm, hu⟩ := h.alike hp hq hd c (List.mem_singleton_self c)
  exact hu.mpr ((hp.usable_iff hd).mpr ⟨hp.mem_iff.mp (hm.mp hc), hb⟩)

/-- A node over one input can be made again over the input fused. -/
theorem Fused.added_unary {n m k : Nat} {q q' : Plan} {f g : Floating} {s t : Statistics}
    {op : Operator} {i : NodeId} {e : Option Statistics} (h : Fused n q f m q' g)
    (hp : (Plan.mk op [q] i e).Estimated t) (hq : q.Estimated s) (hd : q.DistinctColumns) :
    ∃ p, Added k op [q'] p := by
  obtain ⟨_, hq'⟩ := h.known hq
  exact Planner.added_unary k hp hq hq' (h.alike hq hq' hd)

section Product

variable {l r : Plan} {s t : Statistics} {i : NodeId} {e : Option Statistics}
  {predicate : Predicate}

/-- What links the inputs of a product can be selected from it. -/
theorem selects_of_links (hl : l.Estimated s) (hr : r.Estimated t)
    (hd : (Plan.mk .product [l, r] i e).DistinctColumns) (hlinks : predicate.Links s t)
    (hb : ∀ c ∈ predicate.columns, ¬ (l.Blank c ∨ r.Blank c)) :
    ∃ u, (s.product t).select predicate = .ok u := by
  have hp := Estimated.product i hl hr
  refine Statistics.select_ok_iff.mpr fun c hc => (hp.usable_iff hd).mpr ⟨?_, ?_⟩
  · rw [← hp.mem_iff, Statistics.mem_def, Statistics.columns_product, List.mem_append]
    exact covered_of_links hlinks c hc
  · rw [blank_binary rfl]
    exact hb c hc

/-- What links the inputs of a product joins the inputs fused. -/
theorem succeeds_joined_fused {n m n' m' : Nat} {l' r' : Plan} {f g f' g' : Floating}
    (left : Fused n l f m l' g) (right : Fused n' r f' m' r' g') (hl : l.Estimated s)
    (hr : r.Estimated t) (hd : (Plan.mk .product [l, r] i e).DistinctColumns)
    (hlinks : predicate.Links s t)
    (hb : ∀ c ∈ predicate.columns, ¬ (l.Blank c ∨ r.Blank c)) (x : Progress) :
    Succeeds (joined predicate l' r') x := by
  obtain ⟨hdl, hdr, _⟩ := hd.binary
  obtain ⟨s', hl'⟩ := left.known hl
  obtain ⟨t', hr'⟩ := right.known hr
  have hs (c : Column) : c ∈ s' ↔ c ∈ s :=
    (left.alike hl hl' hdl c (List.mem_singleton_self c)).1
  have ht (c : Column) : c ∈ t' ↔ c ∈ t :=
    (right.alike hr hr' hdr c (List.mem_singleton_self c)).1
  apply succeeds_joined hl' hr' ((links_congr hs ht).mpr hlinks)
  · exact fun c hc hm => hl.not_mem_right hr hd c ((hs c).mp hc) ((ht c).mp hm)
  · exact fun c hc => left.usable hl hl' hdl fun hm => hb c hc (.inl hm)
  · exact fun c hc => right.usable hr hr' hdr fun hm => hb c hc (.inr hm)

end Product

/-- A plan without shared columns can be fused, if no blank column is compared. -/
theorem succeeds_fuse {p : Plan} {s : Statistics} {f : Floating} (hp : p.Estimated s)
    (hd : p.DistinctColumns) (hs : p.Sound f.predicates) (x : Progress) :
    Succeeds (fuse p f) x := by
  induction hp generalizing f x with
  | scan r i => exact succeeds_pure
  | @select q s t predicate i hq he ih =>
      have hadd : q.Sound (f.add i predicate).predicates := by
        rw [Floating.predicates_add]
        exact hs.unary rfl
      have hp := Estimated.select i hq he
      rw [fuse]
      split
      · have hf : q.Sound f.predicates := hadd.mono fun p hm => by
          simp [Floating.predicates_add, hm]
        obtain ⟨⟨q', g⟩, u, h⟩ := ih hd.unary hf x
        obtain ⟨p, added⟩ := (fused_of_returns h hq).added_unary hp hq hd.unary
        exact h.bind (Returns.bind (.addNode added) succeeds_pure)
      · obtain ⟨⟨q', f'⟩, u, h⟩ := ih hd.unary hadd x
        obtain ⟨p, added⟩ := (fused_of_returns h hq).added_unary hp hq hd.unary
        apply h.bind
        dsimp only
        split
        · exact Returns.bind (.addNode added) succeeds_pure
        · exact succeeds_pure
  | @project q s t cs i hq he ih =>
      have hf : q.Sound f.predicates := by simpa [Operator.predicate?] using hs.unary rfl
      obtain ⟨⟨q', g⟩, u, h⟩ := ih hd.unary hf x
      obtain ⟨p, added⟩ := (fused_of_returns h hq).added_unary (.project i hq he) hq hd.unary
      exact h.bind (Returns.bind (.addNode added) succeeds_pure)
  | @product l r s t i hl hr ihl ihr =>
      obtain ⟨hdl, hdr, _⟩ := hd.binary
      have hp := Estimated.product i hl hr
      have hblank : ∀ e ∈ f, ∀ c ∈ e.predicate.columns, ¬ (l.Blank c ∨ r.Blank c) := by
        intro e he c hc hb
        refine hs e.predicate ?_ c hc ((blank_binary rfl).mpr hb)
        exact List.mem_append_left _ (List.mem_map_of_mem he)
      obtain ⟨o, y, picked⟩ := succeeds_pick hp hl hr
        (fun e he hlinks => selects_of_links hl hr hd hlinks (hblank e he)) x
      obtain ⟨_, ho⟩ := returns_pick hp hl hr picked
      obtain ⟨⟨l', g⟩, z, onLeft⟩ := ihl (f := []) hdl (hs.left rfl |>.mono (List.nil_subset _)) y
      obtain ⟨⟨r', k⟩, w, onRight⟩ := ihr (f := []) hdr (hs.right rfl |>.mono (List.nil_subset _)) z
      have left := fused_of_returns onLeft hl
      have right := fused_of_returns onRight hr
      refine picked.bind (onLeft.bind (onRight.bind ?_))
      cases o with
      | none =>
          obtain ⟨_, hl'⟩ := left.known hl
          obtain ⟨_, hr'⟩ := right.known hr
          obtain ⟨p, added⟩ := added_product w.issued hl' hr'
          exact Returns.bind (.addNode added) succeeds_pure
      | some e =>
          obtain ⟨chosen, links⟩ := mem_of_choice ho.symm
          obtain ⟨p, v, made⟩ :=
            succeeds_joined_fused left right hl hr hd links (hblank e chosen) w
          exact made.bind succeeds_pure
  | @join l r s t u predicate i hl hr he ihl ihr =>
      obtain ⟨hdl, hdr, _⟩ := hd.binary
      have hp := Estimated.join i hl hr he
      obtain ⟨⟨l', g⟩, z, onLeft⟩ := ihl (f := []) hdl (hs.left rfl |>.mono (List.nil_subset _)) x
      obtain ⟨⟨r', k⟩, w, onRight⟩ := ihr (f := []) hdr (hs.right rfl |>.mono (List.nil_subset _)) z
      have left := fused_of_returns onLeft hl
      have right := fused_of_returns onRight hr
      obtain ⟨s', hl'⟩ := left.known hl
      obtain ⟨t', hr'⟩ := right.known hr
      obtain ⟨p, added⟩ := added_binary w.issued hp hl hr hl' hr' (left.alike hl hl' hdl)
        (right.alike hr hr' hdr)
      exact onLeft.bind (onRight.bind (Returns.bind (.addNode added) succeeds_pure))

section Run

variable {p q : Plan} {s t : Progress} {e : Statistics} {o : Option (List Column)} {db : Database}

theorem fused_of_run (h : Returns (run p) s q t) (hp : p.Estimated e) :
    ∃ g, Fused s.issued p [] t.issued q g := by
  obtain ⟨⟨r, g⟩, u, fused, h₁⟩ := returns_bind.mp h
  obtain ⟨rfl, rfl⟩ := returns_pure.mp h₁
  exact ⟨g, fused_of_returns fused hp⟩

theorem renewed_of_run (h : Returns (run p) s q t) (hp : p.Estimated e) :
    Renewed s.issued p t.issued q := by
  obtain ⟨g, fused⟩ := fused_of_run h hp
  exact ⟨fused.le, fused.known hp, .of_eq fused.scans⟩

theorem conserved_of_run (h : Returns (run p) s q t) (hp : p.Estimated e) (hi : p.ids.Nodup) :
    Conserved s.issued p t.issued q := by
  obtain ⟨g, fused⟩ := fused_of_run h hp
  refine ⟨?_, fused.ids_le⟩
  have hf := fused.forms hi
  rw [fused.eq_nil hi] at hf
  exact add_right_cancel hf

theorem rooted_of_run (h : Returns (run p) s q t) (hp : p.Estimated e) (hr : Rooted o p) :
    Rooted o q := by
  obtain ⟨g, fused⟩ := fused_of_run h hp
  exact fused.rooted hr

theorem faithful_of_run (h : Returns (run p) s q t) (hp : p.Estimated e) (hi : p.ids.Nodup) :
    Faithful db p q := by
  obtain ⟨g, fused⟩ := fused_of_run h hp
  refine ⟨fun c => by rw [fused.columns], ?_⟩
  have hrows : (q.rows db).Perm ((p.rows db).filter _) := fused.rows_perm hp hi .nil
  simpa [Floating.landed_nil] using hrows

theorem succeeds_run (hp : p.Estimated e) (hd : p.DistinctColumns) (x : Progress) :
    Succeeds (run p) x := by
  obtain ⟨⟨q, g⟩, u, h⟩ := succeeds_fuse (f := []) hp hd (hp.sound hd) x
  exact h.bind succeeds_pure

/-- Fusing joins never fails on a consistent plan of any shape, and keeps its columns in their
order and the rows it returns. -/
theorem run_same_rows (hp : p.Consistent) (hi : p.DistinctIds) (hd : p.DistinctColumns)
    (x : Progress) :
    ∃ q y d e, Returns (run p) x q y ∧ p.output = .ok d ∧ q.output = .ok e ∧
      e.columns = d.columns ∧ ∀ db, (q.rows db).Perm (p.rows db) := by
  obtain ⟨d, hp⟩ := hp.estimated
  obtain ⟨q, y, h⟩ := succeeds_run hp hd x
  obtain ⟨g, fused⟩ := fused_of_run h hp
  obtain ⟨e, hq⟩ := fused.known hp
  refine ⟨q, y, d, e, h, hp.output_eq, hq.output_eq, ?_, fun db => ?_⟩
  · rw [hq.columns_eq, hp.columns_eq, fused.columns]
  · exact (faithful_of_run h hp hi).rows

end Run

def bushy : Plan :=
  ⟨.select (.equalsColumn ⟨"x"⟩ ⟨"y"⟩), [⟨.project [⟨"x"⟩, ⟨"y"⟩, ⟨"w"⟩],
    [⟨.select (.equalsValue ⟨"y"⟩ "1"), [⟨.select (.equalsColumn ⟨"w"⟩ ⟨"z"⟩), [⟨.product,
      [⟨.join (.equalsColumn ⟨"x"⟩ ⟨"u"⟩),
        [⟨.scan ⟨"r", ⟨8, [⟨⟨"x"⟩, 4⟩, ⟨⟨"z"⟩, 2⟩]⟩⟩, [], 1, some ⟨8, [⟨⟨"x"⟩, 4⟩, ⟨⟨"z"⟩, 2⟩]⟩⟩,
          ⟨.scan ⟨"v", ⟨4, [⟨⟨"u"⟩, 4⟩]⟩⟩, [], 2, some ⟨4, [⟨⟨"u"⟩, 4⟩]⟩⟩],
        3, some ⟨8, [⟨⟨"x"⟩, 4⟩, ⟨⟨"z"⟩, 2⟩, ⟨⟨"u"⟩, 4⟩]⟩⟩,
      ⟨.product, [⟨.scan ⟨"s", ⟨6, [⟨⟨"y"⟩, 3⟩]⟩⟩, [], 4, some ⟨6, [⟨⟨"y"⟩, 3⟩]⟩⟩,
          ⟨.scan ⟨"t", ⟨5, [⟨⟨"w"⟩, 5⟩]⟩⟩, [], 5, some ⟨5, [⟨⟨"w"⟩, 5⟩]⟩⟩],
        6, some ⟨30, [⟨⟨"y"⟩, 3⟩, ⟨⟨"w"⟩, 5⟩]⟩⟩],
      7, some ⟨240, [⟨⟨"x"⟩, 4⟩, ⟨⟨"z"⟩, 2⟩, ⟨⟨"u"⟩, 4⟩, ⟨⟨"y"⟩, 3⟩, ⟨⟨"w"⟩, 5⟩]⟩⟩],
      8, some ⟨48, [⟨⟨"x"⟩, 4⟩, ⟨⟨"z"⟩, 2⟩, ⟨⟨"u"⟩, 4⟩, ⟨⟨"y"⟩, 3⟩, ⟨⟨"w"⟩, 2⟩]⟩⟩],
      9, some ⟨16, [⟨⟨"x"⟩, 4⟩, ⟨⟨"z"⟩, 2⟩, ⟨⟨"u"⟩, 4⟩, ⟨⟨"y"⟩, 1⟩, ⟨⟨"w"⟩, 2⟩]⟩⟩],
    10, some ⟨16, [⟨⟨"x"⟩, 4⟩, ⟨⟨"y"⟩, 1⟩, ⟨⟨"w"⟩, 2⟩]⟩⟩],
  11, some ⟨4, [⟨⟨"x"⟩, 1⟩, ⟨⟨"y"⟩, 1⟩, ⟨⟨"w"⟩, 2⟩]⟩⟩

theorem consistent_bushy : bushy.Consistent := by
  have hp : bushy.Estimated ⟨4, [⟨⟨"x"⟩, 1⟩, ⟨⟨"y"⟩, 1⟩, ⟨⟨"w"⟩, 2⟩]⟩ :=
    .select 11 (.project 10 (.select 9 (.select 8 (.product 7
      (.join 3 (.scan _ 1) (.scan _ 2) rfl) (.product 6 (.scan _ 4) (.scan _ 5)))
      rfl) rfl) rfl) rfl
  exact hp.consistent

theorem distinctIds_bushy : bushy.DistinctIds := by
  unfold DistinctIds
  decide

theorem run_same_rows_bushy :
    ∃ q y d e, Returns (run bushy) .start q y ∧ bushy.output = .ok d ∧ q.output = .ok e ∧
      e.columns = d.columns ∧ ∀ db, (q.rows db).Perm (bushy.rows db) :=
  run_same_rows consistent_bushy distinctIds_bushy (by decide) .start

end QueryPlan.FuseJoins
