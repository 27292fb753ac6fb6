import QueryPlan.Proofs.PushSelects.Lowest

/-!
Where each selection goes. A predicate afloat is taken by the first node on its way that
can take it, and the projections on that way are not asked. Where no output has a column
twice, but several relations may have it, a comparison with a constant can come to stand
above a scan whose column the selection never saw. It does not as long as the column
stays in sight on the whole way up from there.
-/

namespace QueryPlan.Plan

/-- A selection: the way to it from the top by the numbers of inputs, on which selections are
passed over, its predicate and the plan below. -/
structure Standing where
  place : List Nat
  predicate : Predicate
  input : Plan

def Standing.under (i : Nat) (a : Standing) : Standing :=
  { a with place := i :: a.place }

def standings : Plan → List Standing
  | ⟨.select predicate, [q], _, _⟩ => ⟨[], predicate, q⟩ :: standings q
  | ⟨.project _, [q], _, _⟩ => (standings q).map (.under 0)
  | ⟨.product, [l, r], _, _⟩ | ⟨.join _, [l, r], _, _⟩ =>
      (standings l).map (.under 0) ++ (standings r).map (.under 1)
  | ⟨_, _, _, _⟩ => []

/-- The way leads to a scan of the column, and no projection on it hides the column. -/
def Sees (c : Column) : Plan → List Nat → Prop
  | ⟨.scan r, _, _, _⟩, [] => c ∈ r.statistics
  | ⟨.select _, [q], _, _⟩, way => Sees c q way
  | ⟨.project cs, [q], _, _⟩, 0 :: way => c ∈ cs ∧ Sees c q way
  | ⟨.product, [l, _], _, _⟩, 0 :: way | ⟨.join _, [l, _], _, _⟩, 0 :: way => Sees c l way
  | ⟨.product, [_, r], _, _⟩, 1 :: way | ⟨.join _, [_, r], _, _⟩, 1 :: way => Sees c r way
  | ⟨_, _, _, _⟩, _ => False

/-- One selection is the other gone down from its place, a comparison with a constant to a scan
whose column the other sees. -/
def Standing.Follows (a b : Standing) : Prop :=
  a.predicate = b.predicate ∧ ∃ way, a.place = b.place ++ way ∧
    ∀ c v, b.predicate = .equalsValue c v → b.input.Sees c way

variable {p : Plan} {c : Column} {l r : Plan} {i : NodeId} {e : Option Statistics} {op : Operator}
  {way : List Nat}

theorem standings_binary (ho : op.arity = 2) :
    (Plan.mk op [l, r] i e).standings =
      l.standings.map (.under 0) ++ r.standings.map (.under 1) := by
  obtain rfl | ⟨_, rfl⟩ := product_or_join ho <;> rfl

theorem EachSelection.standings {P : Predicate → Plan → Prop}
    (h : p.EachSelection fun _ => P) : ∀ a ∈ p.standings, P a.predicate a.input := by
  fun_induction Plan.standings p with
  | case1 predicate q _ _ ih =>
      have hx := eachSelection_select.mp h
      exact List.forall_mem_cons.mpr ⟨hx.1, ih hx.2⟩
  | case2 _ q _ _ ih => exact List.forall_mem_map.mpr (ih (eachSelection_project.mp h))
  | case3 _ _ _ _ ihl ihr | case4 _ _ _ _ _ ihl ihr =>
      have hx := eachSelection_binary.mp h
      exact List.forall_mem_append.mpr
        ⟨List.forall_mem_map.mpr (ihl hx.1), List.forall_mem_map.mpr (ihr hx.2)⟩
  | case5 => exact List.forall_mem_nil _

theorem sees_left (ho : op.arity = 2) :
    (Plan.mk op [l, r] i e).Sees c (0 :: way) ↔ l.Sees c way := by
  obtain rfl | ⟨_, rfl⟩ := product_or_join ho <;> rfl

theorem sees_right (ho : op.arity = 2) :
    (Plan.mk op [l, r] i e).Sees c (1 :: way) ↔ r.Sees c way := by
  obtain rfl | ⟨_, rfl⟩ := product_or_join ho <;> rfl

end QueryPlan.Plan

namespace QueryPlan.PushSelects

open Planner Plan

variable {n m : Nat} {p q l r : Plan} {i : NodeId} {e : Option Statistics} {op : Operator}
  {f g : Floating} {s : Statistics} {predicate : Predicate} {predicates : List Predicate}

/-- The way to the node that takes the predicate, and none if no node does. -/
def landing (predicate : Predicate) : Plan → List Nat
  | ⟨.select _, [q], _, _⟩ => landing predicate q
  | ⟨.project _, [q], _, _⟩ => if absorbs q predicate then 0 :: landing predicate q else []
  | ⟨.product, [l, r], _, _⟩ | ⟨.join _, [l, r], _, _⟩ =>
      if absorbs l predicate then 0 :: landing predicate l
      else if absorbs r predicate then 1 :: landing predicate r
      else []
  | ⟨_, _, _, _⟩ => []

theorem landing_binary (ho : op.arity = 2) :
    landing predicate ⟨op, [l, r], i, e⟩ =
      if absorbs l predicate then 0 :: landing predicate l
      else if absorbs r predicate then 1 :: landing predicate r
      else [] := by
  obtain rfl | ⟨_, rfl⟩ := product_or_join ho <;> rfl

theorem landing_of_free (hn : ¬ absorbs p predicate) : landing predicate p = [] := by
  fun_induction landing predicate p with
  | case1 _ _ _ _ ih =>
      rw [absorbs_unary rfl] at hn
      exact ih hn
  | case2 _ _ _ _ ha _ =>
      rw [absorbs_unary rfl] at hn
      exact absurd ha hn
  | case4 _ _ _ _ ha _ | case7 _ _ _ _ _ ha _ =>
      exact absurd ha (not_absorbs_binary.mp hn).1
  | case5 _ _ _ _ _ ha _ | case8 _ _ _ _ _ _ ha _ =>
      exact absurd ha (not_absorbs_binary.mp hn).2.1
  | case3 | case6 | case9 | case10 => rfl

/-- What no node takes is taken nowhere out of sight. -/
theorem clear_of_free (hp : p.Estimated s) (hn : ¬ absorbs p predicate) : Clear p predicate := by
  induction hp with
  | scan r i =>
      intro x hx ha
      rw [List.mem_singleton.mp hx] at ha
      exact absurd ha hn
  | select i _ _ ih | project i _ _ ih =>
      have hq := hn
      rw [absorbs_unary rfl] at hq
      exact Clear.unary_iff.mpr ⟨fun ha => absurd ha hn, ih hq⟩
  | product i _ _ ihl ihr | join i _ _ _ ihl ihr =>
      obtain ⟨hnl, hnr, _⟩ := not_absorbs_binary.mp hn
      exact Clear.binary_iff.mpr ⟨fun ha => absurd ha hn, ihl hnl, fun _ => ihr hnr⟩

section Value

variable {c : Column} {v : String}

theorem columns_equalsValue : (Predicate.equalsValue c v).columns ⊆ p.columns ↔ c ∈ p.columns := by
  simp [Predicate.columns]

theorem sees_landing_binary {t u : Statistics} (ho : op.arity = 2) (hl : l.Estimated t)
    (hr : r.Estimated u)
    (ihl : absorbs l (.equalsValue c v) →
      (l.Sees c (landing (.equalsValue c v) l) ↔ Clear l (.equalsValue c v)))
    (ihr : absorbs r (.equalsValue c v) →
      (r.Sees c (landing (.equalsValue c v) r) ↔ Clear r (.equalsValue c v)))
    (ha : absorbs ⟨op, [l, r], i, e⟩ (.equalsValue c v)) :
    (Plan.mk op [l, r] i e).Sees c (landing (.equalsValue c v) ⟨op, [l, r], i, e⟩) ↔
      Clear ⟨op, [l, r], i, e⟩ (.equalsValue c v) := by
  rw [landing_binary ho, Clear.binary_iff, columns_equalsValue, columns_binary ho,
    List.mem_append]
  by_cases hal : absorbs l (.equalsValue c v)
  · rw [if_pos hal, sees_left ho, ihl hal]
    refine ⟨fun h => ⟨fun _ => .inl ?_, h, fun hn => absurd hal hn⟩, fun h => h.2.1⟩
    exact columns_equalsValue.mp (h.top hal)
  · rw [if_neg hal]
    by_cases har : absorbs r (.equalsValue c v)
    · rw [if_pos har, sees_right ho, ihr har]
      refine ⟨fun h => ⟨fun _ => .inr ?_, clear_of_free hl hal, fun _ => h⟩, fun h => h.2.2 hal⟩
      exact columns_equalsValue.mp (h.top har)
    · have ht : takes ⟨op, [l, r], i, e⟩ (.equalsValue c v) := by
        simpa only [absorbs_binary, hal, har, Bool.false_or] using ha
      have hc := columns_equalsValue.mp (columns_subset_of_takes ht)
      rw [columns_binary ho, List.mem_append] at hc
      exact absurd (hc.imp (absorbs_equalsValue hl) (absorbs_equalsValue hr))
        (not_or.mpr ⟨hal, har⟩)

/-- The scan that takes a comparison with a constant is one whose column the plan sees, just when
the column stays in sight on the whole way up from there. -/
theorem sees_landing_iff (hp : p.Estimated s) (ha : absorbs p (.equalsValue c v)) :
    p.Sees c (landing (.equalsValue c v) p) ↔ Clear p (.equalsValue c v) := by
  induction hp with
  | scan r i =>
      rw [absorbs_scan] at ha
      have hc := columns_subset_of_scanTakes ha
      refine ⟨fun _ x hx _ => ?_, fun _ => hc (List.mem_singleton_self c)⟩
      rw [List.mem_singleton.mp hx]
      exact hc
  | select i _ _ ih =>
      rw [absorbs_unary rfl] at ha
      rw [landing, Sees, ih ha, Clear.unary_iff]
      exact ⟨fun h => ⟨fun _ => h.top ha, h⟩, fun h => h.2⟩
  | project i _ _ ih =>
      have hq := ha
      rw [absorbs_unary rfl] at hq
      rw [landing, if_pos hq, Sees, ih hq, Clear.unary_iff, columns_equalsValue, columns,
        List.mem_filter, decide_eq_true_eq]
      refine ⟨fun h => ⟨fun _ => ⟨?_, h.1⟩, h.2⟩, fun h => ⟨(h.1 ha).2, h.2⟩⟩
      exact columns_equalsValue.mp (h.2.top hq)
  | product i hl hr ihl ihr => exact sees_landing_binary rfl hl hr ihl ihr ha
  | join i hl hr _ ihl ihr => exact sees_landing_binary rfl hl hr ihl ihr ha

end Value

def spot (a : Standing) : List Nat × Predicate :=
  (a.place, a.predicate)

def target (a : Standing) : List Nat × Predicate :=
  (a.place ++ landing a.predicate a.input, a.predicate)

/-- A place in an input is a place in the plan. -/
def sink (i : Nat) (a : List Nat × Predicate) : List Nat × Predicate :=
  (i :: a.1, a.2)

theorem map_spot_under (i : Nat) (as : List Standing) :
    (as.map (.under i)).map spot = (as.map spot).map (sink i) := by
  simp [spot, sink, Standing.under, Function.comp_def]

theorem map_target_under (i : Nat) (as : List Standing) :
    (as.map (.under i)).map target = (as.map target).map (sink i) := by
  simp [target, sink, Standing.under, Function.comp_def]

def landings (p : Plan) (predicates : List Predicate) : List (List Nat × Predicate) :=
  predicates.map fun predicate => (landing predicate p, predicate)

theorem standings_stacked (h : Stacked n p predicates m q) :
    (q.standings.map spot).Perm (p.standings.map spot ++ predicates.map ([], ·)) := by
  induction h with
  | nil => simp
  | cons added _ ih =>
      cases added
      refine ih.trans ?_
      rw [standings, List.map_cons, List.map_cons]
      exact List.perm_middle.symm

theorem landings_project {cs : List Column} :
    landings ⟨.project cs, [q], i, e⟩ (f.taken (absorbs q)) =
      (landings q (f.taken (absorbs q))).map (sink 0) := by
  rw [landings, landings, List.map_map]
  refine List.map_congr_left fun predicate hm => ?_
  rw [landing, if_pos (Floating.mem_taken.mp hm).2]
  rfl

theorem landings_binary (ho : op.arity = 2) :
    (landings ⟨op, [l, r], i, e⟩ (f.taken (absorbs ⟨op, [l, r], i, e⟩))).Perm
      ((landings l (f.taken (absorbs l))).map (sink 0) ++
        ((landings r ((f.untaken (absorbs l)).taken (absorbs r))).map (sink 1) ++
          (((f.untaken (absorbs l)).untaken (absorbs r)).taken
            (takes ⟨op, [l, r], i, e⟩)).map ([], ·))) := by
  have hperm : (f.taken (absorbs ⟨op, [l, r], i, e⟩)).Perm
      (f.taken (absorbs l) ++ ((f.untaken (absorbs l)).taken (absorbs r) ++
        ((f.untaken (absorbs l)).untaken (absorbs r)).taken (takes ⟨op, [l, r], i, e⟩))) := by
    rw [absorbs_binary]
    exact Floating.taken_or_perm.trans (Floating.taken_or_perm.append_left _)
  refine (hperm.map _).trans (List.Perm.of_eq ?_)
  rw [List.map_append, List.map_append, landings, landings, List.map_map, List.map_map]
  congr 1
  · refine List.map_congr_left fun predicate hm => ?_
    have hl := (Floating.mem_taken.mp hm).2
    simp [landing_binary ho, hl, sink]
  congr 1
  · refine List.map_congr_left fun predicate hm => ?_
    obtain ⟨hm, hr⟩ := Floating.mem_taken.mp hm
    have hl := (Floating.mem_predicates_untaken.mp hm).2
    simp [landing_binary ho, hl, hr, sink]
  · refine List.map_congr_left fun predicate hm => ?_
    obtain ⟨hm, hr⟩ := Floating.mem_predicates_untaken.mp (Floating.mem_taken.mp hm).1
    have hl := (Floating.mem_predicates_untaken.mp hm).2
    simp [landing_binary ho, hl, hr]

/-- Each predicate comes to stand where its landing says, from its selection or from afloat. -/
theorem Sunk.standings_perm (h : Sunk p f q g) :
    (q.standings.map spot).Perm
      (p.standings.map target ++ landings p (f.taken (absorbs p))) := by
  induction h with
  | scan stacked =>
      rw [absorbs_scan]
      exact standings_stacked stacked
  | @kept predicate q q' i _ e _ f g _ own rest input ih =>
      have hn := input.free own
      have ht : target ⟨[], predicate, q⟩ = ([], predicate) := by
        rw [target, landing_of_free hn, List.append_nil]
      rw [Floating.taken_add, if_neg hn, List.append_nil] at ih
      rw [standings, standings, List.map_cons, List.map_cons, ht, absorbs_unary rfl]
      exact ih.cons _
  | @landed predicate q q' i e f g _ own rest input ih =>
      rw [Floating.taken_add, if_pos (input.taken own rest), landings, List.map_append,
        ← List.append_assoc] at ih
      rw [standings, List.map_cons, absorbs_unary rfl]
      exact ih.trans (List.perm_append_singleton _ _)
  | project _ ih =>
      rw [standings, standings, map_spot_under, map_target_under, absorbs_unary rfl,
        landings_project, ← List.map_append]
      exact ih.map _
  | @pair _ _ op l r l' r' _ _ _ u i j e e' f g h binary _ _ _ left _ right output stacked
      ihl ihr =>
      -- what lands on the right has passed the left input, what lands above has passed both
      have hl := ihl.map (sink 0)
      have hr := ihr.map (sink 1)
      rw [left.rest] at hr
      refine (standings_stacked stacked).trans ?_
      rw [standings_binary binary, standings_binary binary, List.map_append, List.map_append,
        map_spot_under, map_spot_under, map_target_under, map_target_under,
        covered_eq_takes (i := i) (e := e) binary output, right.rest, left.rest]
      refine ((hl.append hr).append_right _).trans (List.Perm.trans ?_
        ((landings_binary binary).symm.append_left _))
      simp only [List.map_append, List.append_assoc]
      exact (List.perm_append_comm_assoc _ _ _).append_left _

/-- Where columns stay in sight, pushing selections down never fails, even if relations share
columns. Each selection goes down in a plan otherwise unchanged, a comparison with a constant to a
scan whose column is visible where it stood, and the rows returned are the same. -/
theorem run_in_sight (hp : p.Consistent) (hi : p.DistinctIds) (ho : p.DistinctOutputs)
    (hc : AllClear p) (x : Progress) :
    ∃ q y, Returns (run p) x q y ∧ q.framework = p.framework ∧
      Multiset.Rel Standing.Follows (q.standings : Multiset Standing) p.standings ∧
      ∀ db, p.Fitted db → (q.rows db).Perm (p.rows db) := by
  obtain ⟨s, hp⟩ := hp.estimated
  obtain ⟨q, y, h⟩ := succeeds_run_of_clear hp hi ho hc x
  have sunk := (pushed_of_run h).sunk hp hi
  refine ⟨q, y, h, sunk.framework_eq, ?_, fun db hdb => rows_perm_of_run h hp hi ho hc hdb⟩
  have hperm : (q.standings.map spot).Perm (p.standings.map target) := by
    simpa [Floating.taken, landings] using sunk.standings_perm
  have hsees : p.EachSelection fun _ predicate input => ∀ c v, predicate = .equalsValue c v →
      input.Sees c (landing predicate input) := by
    refine EachSelection.imp hc hp fun _ predicate input t hinput hcols hclear c v heq => ?_
    subst heq
    have ha := absorbs_equalsValue (v := v) hinput (columns_equalsValue.mp hcols)
    exact (sees_landing_iff hinput ha).mpr hclear
  rw [← Multiset.coe_eq_coe, ← Multiset.map_coe, ← Multiset.map_coe, ← Multiset.rel_eq,
    Multiset.rel_map] at hperm
  refine hperm.mono fun a _ b hb heq => ?_
  obtain ⟨hplace, hpredicate⟩ := Prod.mk.inj heq
  exact ⟨hpredicate, _, hplace, hsees.standings b (Multiset.mem_coe.mp hb)⟩

def twice : Plan :=
  ⟨.select (.equalsValue ⟨"a"⟩ "1"), [⟨.product,
    [⟨.project [⟨"a"⟩], [⟨.scan ⟨"r", ⟨8, [⟨⟨"a"⟩, 4⟩, ⟨⟨"b"⟩, 2⟩]⟩⟩, [], 1,
        some ⟨8, [⟨⟨"a"⟩, 4⟩, ⟨⟨"b"⟩, 2⟩]⟩⟩], 2, some ⟨8, [⟨⟨"a"⟩, 4⟩]⟩⟩,
      ⟨.project [⟨"b"⟩], [⟨.scan ⟨"r", ⟨8, [⟨⟨"a"⟩, 4⟩, ⟨⟨"b"⟩, 2⟩]⟩⟩, [], 3,
        some ⟨8, [⟨⟨"a"⟩, 4⟩, ⟨⟨"b"⟩, 2⟩]⟩⟩], 4, some ⟨8, [⟨⟨"b"⟩, 2⟩]⟩⟩],
    5, some ⟨64, [⟨⟨"a"⟩, 4⟩, ⟨⟨"b"⟩, 2⟩]⟩⟩], 6, some ⟨16, [⟨⟨"a"⟩, 1⟩, ⟨⟨"b"⟩, 2⟩]⟩⟩

theorem run_in_sight_twice :
    ∃ q y, Returns (run twice) .start q y ∧ q.framework = twice.framework ∧
      Multiset.Rel Standing.Follows (q.standings : Multiset Standing) twice.standings ∧
      ∀ db, twice.Fitted db → (q.rows db).Perm (twice.rows db) := by
  have hp : twice.Estimated ⟨16, [⟨⟨"a"⟩, 1⟩, ⟨⟨"b"⟩, 2⟩]⟩ :=
    .select 6 (.product 5 (.project 2 (.scan _ 1) rfl) (.project 4 (.scan _ 3) rfl)) rfl
  have hi : twice.ids.Nodup := by decide
  exact run_in_sight hp.consistent hi (by decide) (by decide) .start

/-- On the left a relation cut down to its second column, on the right one that has only a column
of the same name as the first. -/
def shadowed : Plan :=
  ⟨.select (.equalsValue ⟨"a"⟩ "1"), [⟨.product,
    [⟨.project [⟨"b"⟩], [⟨.scan ⟨"r", ⟨8, [⟨⟨"a"⟩, 4⟩, ⟨⟨"b"⟩, 2⟩]⟩⟩, [], 1,
        some ⟨8, [⟨⟨"a"⟩, 4⟩, ⟨⟨"b"⟩, 2⟩]⟩⟩], 2, some ⟨8, [⟨⟨"b"⟩, 2⟩]⟩⟩,
      ⟨.scan ⟨"s", ⟨6, [⟨⟨"a"⟩, 3⟩]⟩⟩, [], 3, some ⟨6, [⟨⟨"a"⟩, 3⟩]⟩⟩],
    4, some ⟨48, [⟨⟨"b"⟩, 2⟩, ⟨⟨"a"⟩, 3⟩]⟩⟩], 5, some ⟨16, [⟨⟨"b"⟩, 2⟩, ⟨⟨"a"⟩, 1⟩]⟩⟩

def cells (values : List (Column × String)) : Row :=
  fun c => values.lookup c

theorem fills_cells (values : List (Column × String)) :
    (cells values).Fills (values.map Prod.fst) := by
  intro c
  rw [cells]
  induction values with
  | nil => simp
  | cons d values ih => by_cases hd : c = d.1 <;> simp_all

def shadowedRows : Database
  | "r" => [cells [(⟨"a"⟩, "2"), (⟨"b"⟩, "1")]]
  | "s" => [cells [(⟨"a"⟩, "1")]]
  | _ => []

theorem fitted_shadowed : shadowed.Fitted shadowedRows :=
  List.forall_mem_cons.mpr ⟨List.forall_mem_singleton.mpr (fills_cells _),
    List.forall_mem_singleton.mpr (List.forall_mem_singleton.mpr (fills_cells _))⟩

/-- The scan on the left takes the comparison, though its column is projected away above, and the
one row with the constant is lost. -/
theorem run_in_sight_shadowed :
    shadowed.Consistent ∧ shadowed.DistinctIds ∧ shadowed.DistinctOutputs ∧
      ∃ q y, Returns (run shadowed) .start q y ∧
        q.standings.map spot = [([0, 0], .equalsValue ⟨"a"⟩ "1")] ∧
        ¬ Multiset.Rel Standing.Follows (q.standings : Multiset Standing) shadowed.standings ∧
        ∃ db, shadowed.Fitted db ∧ ¬ (q.rows db).Perm (shadowed.rows db) := by
  have hp : shadowed.Estimated ⟨16, [⟨⟨"b"⟩, 2⟩, ⟨⟨"a"⟩, 1⟩]⟩ :=
    .select 5 (.product 4 (.project 2 (.scan _ 1) rfl) (.scan _ 3)) rfl
  have hi : shadowed.ids.Nodup := by decide
  refine ⟨hp.consistent, hi, by decide, _, _, rfl, rfl, fun hrel => ?_, shadowedRows,
    fitted_shadowed, fun hperm => ?_⟩
  · obtain ⟨b, hb, _, way, hplace, hsees⟩ :=
      Multiset.exists_mem_of_rel_of_mem hrel (Multiset.mem_coe.mpr List.mem_cons_self)
    obtain rfl := List.mem_singleton.mp (Multiset.mem_coe.mp hb)
    obtain rfl : [0, 0] = way := hplace
    have hhidden := (hsees ⟨"a"⟩ "1" rfl).1
    revert hhidden
    decide
  · exact absurd hperm.length_eq (by decide)

end QueryPlan.PushSelects
