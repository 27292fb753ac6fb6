import QueryPlan.Proofs.Links

/-!
Numbers that come round. A run that goes through all 32-bit numbers gives some of them
to a second selection. Pushing selections down then takes the predicate of one back in
the place of the other: the upper one is lost, and the lower one stands there twice.
-/

namespace QueryPlan

open Planner Plan

namespace PushSelects

variable {n m : Nat} {q g : Plan} {r s : BaseRelation} {a b : Predicate} {i j : NodeId}
  {e e' : Option Statistics} {f f' : Floating}

namespace Pushed

theorem over_scan (h : Pushed n ⟨.scan r, [], i, e⟩ f m q f')
    (hf : ∀ a ∈ f.predicates, ¬ scanTakes r a) : q = ⟨.scan r, [], i, e⟩ ∧ f' = f := by
  cases h with
  | scan stacked =>
      rw [Floating.taken_eq_nil hf] at stacked
      cases stacked
      exact ⟨rfl, Floating.untaken_eq_self hf⟩

theorem over_product {l r : Plan} (h : Pushed n ⟨.product, [l, r], i, e⟩ f m q f') :
    ∃ k l' g k' r' g', Pushed n l f k l' g ∧ Pushed k r g k' r' g' ∧
      (g' = [] → f' = [] ∧ ∃ j d, q = ⟨.product, [l', r'], j, d⟩) := by
  cases h with
  | pair _ left right added _ stacked =>
      refine ⟨_, _, _, _, _, _, left, right, fun hg => ?_⟩
      subst hg
      cases stacked
      cases added
      exact ⟨rfl, _, _, rfl⟩

/-- Over a scan that takes its predicate, a selection takes back the predicate of one further up
that has its number. -/
theorem doubled (h : Pushed n ⟨.select b, [⟨.scan r, [], i, e⟩], j, e'⟩ [⟨j, a⟩] m q f)
    (ha : scanTakes r a = false) (hb : scanTakes r b = true) :
    Stacked n ⟨.scan r, [], i, e⟩ [b, b] m q ∧ f = [] := by
  have afloat : Floating.add [⟨j, a⟩] j b = [⟨j, a⟩, ⟨j, b⟩] := rfl
  have taken : Floating.taken [⟨j, a⟩, ⟨j, b⟩] (scanTakes r) = [b] := by
    simp [Floating.taken, ha, hb]
  have rest : Floating.untaken [⟨j, a⟩, ⟨j, b⟩] (scanTakes r) = [⟨j, a⟩] := by
    simp [Floating.untaken, ha, hb]
  have removed : Floating.remove? [⟨j, a⟩] j = some [] := if_pos rfl
  cases h with
  | kept input found again =>
      rw [afloat] at input
      cases input with
      | scan stacked =>
          rw [rest, removed] at found
          rw [taken] at stacked
          cases found
          cases stacked with
          | cons added above =>
              cases above
              exact ⟨.cons added (.cons again .nil), rfl⟩
  | landed input gone =>
      rw [afloat] at input
      cases input with
      | scan stacked =>
          rw [rest, removed] at gone
          cases gone

variable {i₁ i₂ i₃ i₄ : NodeId} {e₁ e₂ e₃ e₄ : Option Statistics}

theorem doubled_inside (ha : a.isEqualsValue = false) (hb : scanTakes s b = true)
    (h : Pushed n ⟨.product, [⟨.scan r, [], i₁, e₁⟩, ⟨.product,
      [⟨.select b, [⟨.scan s, [], i₂, e₂⟩], j, e⟩, g], i₃, e₃⟩], i₄, e₄⟩ [⟨j, a⟩] m q f) :
    f = [] ∧ ∃ k k' k'' l g' j₃ j₄ d₃ d₄, Stacked k ⟨.scan s, [], i₂, e₂⟩ [b, b] k' l ∧
      Pushed k' g [] k'' g' [] ∧
      q = ⟨.product, [⟨.scan r, [], i₁, e₁⟩, ⟨.product, [l, g'], j₃, d₃⟩], j₄, d₄⟩ := by
  have hfree (r : BaseRelation) : scanTakes r a = false := by simp [scanTakes, ha]
  obtain ⟨_, _, _, _, _, _, left, right, upper⟩ := h.over_product
  obtain ⟨rfl, rfl⟩ := left.over_scan (by simp [Floating.predicates, hfree])
  obtain ⟨_, _, _, _, _, _, beside, inner, lower⟩ := right.over_product
  obtain ⟨stacked, rfl⟩ := beside.doubled (hfree s) hb
  obtain rfl := inner.eq_nil
  obtain ⟨rfl, _, _, rfl⟩ := lower rfl
  obtain ⟨rfl, _, _, rfl⟩ := upper rfl
  exact ⟨rfl, _, _, _, _, _, _, _, _, _, stacked, inner, rfl⟩

/-- Of two selections that have one number, the upper one is lost and the lower one doubled. -/
theorem confused (ha : a.isEqualsValue = false) (hb : scanTakes s b = true)
    (h : Pushed n ⟨.select a, [⟨.product, [⟨.scan r, [], i₁, e₁⟩, ⟨.product,
      [⟨.select b, [⟨.scan s, [], i₂, e₂⟩], j, e⟩, g], i₃, e₃⟩], i₄, e₄⟩], j, e'⟩ [] m q f) :
    ∃ k k' k'' l g' j₃ j₄ d₃ d₄, Stacked k ⟨.scan s, [], i₂, e₂⟩ [b, b] k' l ∧
      Pushed k' g [] k'' g' [] ∧
      q = ⟨.product, [⟨.scan r, [], i₁, e₁⟩, ⟨.product, [l, g'], j₃, d₃⟩], j₄, d₄⟩ := by
  cases h with
  | kept input found _ =>
      rw [(input.doubled_inside ha hb).1] at found
      cases found
  | landed input _ => exact (input.doubled_inside ha hb).2

end Pushed

end PushSelects

/-- Products of relations without columns. -/
inductive Hollow (c : Catalogue) : Plan → Prop
  | scan {r b : BaseRelation} {i : NodeId} {e : Option Statistics}
      (found : c.relation? r.name = some b) (bare : b.statistics.attributes = []) :
      Hollow c ⟨.scan r, [], i, e⟩
  | product {l r : Plan} {i : NodeId} {e : Option Statistics} (left : Hollow c l)
      (right : Hollow c r) : Hollow c ⟨.product, [l, r], i, e⟩

namespace Hollow

variable {c : Catalogue} {p : Plan}

theorem projectFree (h : Hollow c p) : p.ProjectFree := by
  induction h with
  | scan _ _ => exact (every_leaf _).mpr rfl
  | product _ _ ihl ihr => exact (every_binary _).mpr ⟨rfl, ihl, ihr⟩

theorem predicates_eq (h : Hollow c p) : p.predicates = [] := by
  induction h with
  | scan _ _ => rfl
  | product _ _ ihl ihr => simp [ihl, ihr, Operator.predicate?]

theorem bare (h : Hollow c p) : ∀ r ∈ p.sources c, r.statistics.attributes = [] := by
  induction h with
  | scan found bare => simp [sources, Operator.relation?, found, bare]
  | product _ _ ihl ihr =>
      rw [sources_product, List.forall_mem_append]
      exact ⟨ihl, ihr⟩

theorem columns_eq (h : Hollow c p) :
    ((p.sources c).flatMap fun r => r.statistics.columns) = [] := by
  refine List.flatMap_eq_nil_iff.mpr fun r hr => ?_
  rw [Statistics.columns, h.bare r hr, List.map_nil]

theorem copied (h : Hollow c p) (n : Nat) : ∃ m q, Copied c n p m q := by
  induction h generalizing n with
  | scan found _ => exact ⟨_, _, .scan found (.mk rfl)⟩
  | product _ _ ihl ihr =>
      obtain ⟨m, l, left⟩ := ihl n
      obtain ⟨k, r, right⟩ := ihr m
      exact ⟨_, left.exists_product right⟩

end Hollow

namespace Recurring

def catalogue : Catalogue :=
  .ofList [⟨"r", ⟨8, [⟨⟨"x"⟩, 4⟩]⟩⟩, ⟨"s", ⟨6, [⟨⟨"y"⟩, 3⟩]⟩⟩, ⟨"e", ⟨1, []⟩⟩]

def equation : Predicate :=
  .equalsColumn ⟨"x"⟩ ⟨"y"⟩

def comparison : Predicate :=
  .equalsValue ⟨"y"⟩ "2"

/-- The first two relations and another plan, with the comparison over the second. -/
def sides (g : Plan) : Plan :=
  ⟨.product, [⟨.scan ⟨"r", ⟨0, []⟩⟩, [], 0, none⟩, ⟨.product, [⟨.select comparison,
    [⟨.scan ⟨"s", ⟨0, []⟩⟩, [], 0, none⟩], 0, none⟩, g], 0, none⟩], 0, none⟩

/-- The equation on top of them. -/
def straddled (g : Plan) : Plan :=
  ⟨.select equation, [sides g], 0, none⟩

def database : Database := fun name =>
  if name = "r" then [fun c => if c = ⟨"x"⟩ then some "1" else none]
  else if name = "s" then [fun c => if c = ⟨"y"⟩ then some "2" else none]
  else if name = "e" then [fun _ => none]
  else []

variable {n m : Nat} {p q g : Plan} {s t : Progress}

theorem relations_catalogue : catalogue.relations =
    [⟨"e", ⟨1, []⟩⟩, ⟨"s", ⟨6, [⟨⟨"y"⟩, 3⟩]⟩⟩, ⟨"r", ⟨8, [⟨⟨"x"⟩, 4⟩]⟩⟩] :=
  rfl

theorem fits_database : ∀ r ∈ catalogue.relations, database.Fits r := by
  have hcomm (c d : Column) : c = d ↔ d = c := eq_comm
  simpa [relations_catalogue, Database.Fits, database, Statistics.mem_def, Statistics.columns]
    using ⟨fun c => hcomm c _, fun c => hcomm c _⟩

theorem database_ne_nil : ∀ r ∈ catalogue.relations, database r.name ≠ [] := by
  simp [relations_catalogue, database]

theorem rows_straddled : (straddled g).rows database = [] := by
  have hr : ∀ a ∈ database "r", a ⟨"x"⟩ = some "1" ∧ a ⟨"y"⟩ = none := by simp [database]
  have hs : ∀ b ∈ database "s", b ⟨"y"⟩ = some "2" := by simp [database]
  rw [straddled, sides, Plan.rows, List.filter_eq_nil_iff]
  intro row hrow
  simp only [Plan.rows, mem_pairs] at hrow
  obtain ⟨a, ha, _, ⟨b, hb, d, _, rfl⟩, rfl⟩ := hrow
  simp [Row.Satisfies, equation, Row.merge, hr a ha, hs b (List.mem_of_mem_filter hb)]

theorem sources_sides : (sides g).sources catalogue =
    ⟨"r", ⟨8, [⟨⟨"x"⟩, 4⟩]⟩⟩ :: ⟨"s", ⟨6, [⟨⟨"y"⟩, 3⟩]⟩⟩ :: g.sources catalogue := by
  rw [sides, sources_product, sources_product, sources_unary rfl]
  rfl

theorem columns_sides : ((sides g).relinked catalogue).columns =
    ⟨"x"⟩ :: ⟨"y"⟩ :: (g.relinked catalogue).columns := by
  rw [sides, relinked_product, relinked_product, relinked_unary rfl]
  rfl

section Hollow

variable (hg : Hollow catalogue g)

include hg

theorem distinctSources_sides : (sides g).DistinctSources catalogue := by
  rw [DistinctSources, sources_sides, List.flatMap_cons, List.flatMap_cons, hg.columns_eq]
  decide

theorem distinctSources_straddled : (straddled g).DistinctSources catalogue := by
  rw [straddled, DistinctSources, sources_unary rfl]
  exact distinctSources_sides hg

theorem copied_straddled (n : Nat) : ∃ m q, Copied catalogue n (straddled g) m q := by
  have left : Copied catalogue n ⟨.scan ⟨"r", ⟨0, []⟩⟩, [], 0, none⟩ (n + 1) _ :=
    .scan rfl (.mk rfl)
  have right : Copied catalogue (n + 1) ⟨.scan ⟨"s", ⟨0, []⟩⟩, [], 0, none⟩ (n + 2) _ :=
    .scan rfl (.mk rfl)
  have hbare : ∀ r ∈ g.sources catalogue, ∀ a ∈ r.statistics.attributes,
      a.column ∈ equation.columns → a.distinct ≠ 0 := by
    intro r hr a ha
    rw [hg.bare r hr] at ha
    cases ha
  have hv : ∀ r ∈ (sides g).sources catalogue, ∀ a ∈ r.statistics.attributes,
      a.column ∈ equation.columns → a.distinct ≠ 0 := by
    rw [sources_sides]
    exact List.forall_mem_cons.mpr ⟨by decide, List.forall_mem_cons.mpr ⟨by decide, hbare⟩⟩
  obtain ⟨_, beside⟩ := right.exists_select comparison (by decide) (by decide) (by decide)
  obtain ⟨k, _, inner⟩ := hg.copied (n + 3)
  obtain ⟨_, below⟩ := beside.exists_product inner
  obtain ⟨_, copied⟩ := left.exists_product below
  have hcols : equation.columns ⊆ ((sides g).relinked catalogue).columns := by
    rw [columns_sides]
    simp [equation, Predicate.columns]
  obtain ⟨q, top⟩ := copied.exists_select equation (distinctSources_sides hg) hcols hv
  exact ⟨_, q, top⟩

theorem canonical_straddled : (straddled g).Canonical where
  joinFree := by
    obtain ⟨_, _, copied⟩ := copied_straddled hg 0
    exact copied.joinFree
  below := by
    simpa [straddled, sides, ProjectFree, every_unary, every_binary, every_leaf,
      Operator.columns?] using hg.projectFree

end Hollow

theorem copied_cases (h : Copied catalogue n (straddled g) m q) :
    ∃ k g' e₁ e₂ e₃ e₄ e₅ e₆, Copied catalogue (n + 3) g k g' ∧ m = k + 3 ∧
      q = ⟨.select equation, [⟨.product, [⟨.scan ⟨"r", ⟨8, [⟨⟨"x"⟩, 4⟩]⟩⟩, [], .ofNat (n + 1), e₁⟩,
        ⟨.product, [⟨.select comparison,
          [⟨.scan ⟨"s", ⟨6, [⟨⟨"y"⟩, 3⟩]⟩⟩, [], .ofNat (n + 2), e₂⟩], .ofNat (n + 3), e₃⟩, g'],
        .ofNat (k + 1), e₄⟩], .ofNat (k + 2), e₅⟩], .ofNat (k + 3), e₆⟩ := by
  obtain ⟨_, _, _, outer, rfl, rfl⟩ := h.unary_inv
  obtain ⟨_, _, _, _, _, left, inner, rfl, rfl⟩ := outer.product_inv
  obtain ⟨_, _, found, rfl, rfl⟩ := left.scan_inv
  cases found
  obtain ⟨_, _, _, _, _, beside, copied, rfl, rfl⟩ := inner.product_inv
  obtain ⟨_, _, _, below, rfl, rfl⟩ := beside.unary_inv
  obtain ⟨_, _, found, rfl, rfl⟩ := below.scan_inv
  cases found
  exact ⟨_, _, _, _, _, _, _, _, copied, rfl, rfl⟩

/-- Pushed down where the numbers have come round, the equation is lost. -/
theorem confused_of_run (hg : Hollow catalogue g) (hs : (g.size + 3) % 2 ^ 32 = 0)
    (copied : Copied catalogue n (straddled g) m p) (h : Returns (PushSelects.run p) s q t) :
    q.predicates.Perm [comparison, comparison] ∧ q.rows database ≠ [] := by
  obtain ⟨k, g', _, _, _, _, _, _, inner, rfl, rfl⟩ := copied_cases copied
  obtain ⟨_, hk⟩ := inner.known
  have hn : (UInt32.ofNat (k + 3) : NodeId) = .ofNat (n + 3) := by
    rw [inner.issued_eq, ← UInt32.toNat_inj, UInt32.toNat_ofNat', UInt32.toNat_ofNat']
    omega
  rw [hn] at h
  obtain ⟨_, _, _, l, g'', _, _, _, _, stacked, pushed, rfl⟩ :=
    (PushSelects.pushed_of_run h).confused rfl rfl
  obtain ⟨_, hg''⟩ := pushed.estimated hk
  have hnil : g''.predicates = [] := by
    have hsub := pushed.predicates_subset hk
    rw [inner.predicates, hg.predicates_eq] at hsub
    exact List.subset_nil.mp hsub
  have hscans : ∀ b ∈ g''.scans, database b.name ≠ [] := by
    intro b hb
    rw [pushed.scans hk, inner.scans] at hb
    exact database_ne_nil b (sources_subset _ _ hb)
  refine ⟨?_, ?_⟩
  · rw [← Multiset.coe_eq_coe]
    simp [hnil, Operator.predicate?, stacked.predicates_eq]
  · rw [Plan.rows, Plan.rows, Plan.rows]
    refine pairs_ne_nil (by simp [database]) (pairs_ne_nil ?_ (hg''.rows_ne_nil hnil hscans))
    rw [stacked.rows, Plan.rows]
    simp [database, Row.Satisfies, comparison]

/-- A run that begins by pushing down goes on without the equation. -/
theorem returns_straddled (rules : List Rule) (options : Options) (hg : Hollow catalogue g)
    (hs : (g.size + 3) % 2 ^ 32 = 0)
    (hrules : .pushProjectsDown ∉ (Rule.pushSelectsDown :: rules).dropLast)
    (hen : .pushSelectsDown ∉ options.disabled) (s : Progress) :
    ∃ r e u q t,
      Returns (optimise catalogue (.pushSelectsDown :: rules) options (straddled g)) s q t ∧
      Returns (rules.foldlM options.step r) u q t ∧ r.Estimated e ∧
      r.scans = (straddled g).sources catalogue ∧ r.predicates.Perm [comparison, comparison] ∧
      r.rows database ≠ [] := by
  obtain ⟨_, p, copied⟩ := copied_straddled hg s.issued
  obtain ⟨v, prepared, rfl⟩ := returns_of_copied copied rfl
  obtain ⟨_, hp⟩ := copied.known
  have hr := copied.rooted (canonical_straddled hg)
  have hd := copied.distinctColumns (distinctSources_straddled hg)
  obtain ⟨q, t, steps⟩ := succeeds_steps hrules hp hr hd v
  have returned : Returns (optimise catalogue _ options (straddled g)) s q t :=
    returns_bind.mpr ⟨p, v, prepared, steps⟩
  obtain ⟨r, u, step, rest⟩ := returns_steps.mp steps
  obtain ⟨disabled, _⟩ | ⟨_, _, applied, _, _⟩ := returns_step step
  · exact (hen disabled).elim
  · obtain ⟨_, hk⟩ := (renewed_of_step step hp).known
    obtain ⟨hpredicates, hrows⟩ := confused_of_run hg hs copied applied
    refine ⟨r, _, u, q, t, returned, rest, hk, ?_, hpredicates, hrows⟩
    rw [(PushSelects.pushed_of_run applied).scans hp, copied.scans]

theorem mem_selections_straddled (hg : Hollow catalogue g) :
    equation ∈ (straddled g).selections := by
  rw [JoinFree.selections_eq (canonical_straddled hg).joinFree, straddled, predicates_unary]
  exact List.mem_cons_self

/-- Without the equation no join is made of the product whose sides it spans. -/
theorem exists_product {e : Statistics} (hq : q.Estimated e)
    (hscans : q.scans.Perm ((straddled g).sources catalogue))
    (hpredicates : ∀ a ∈ q.predicates, a = comparison) :
    ∃ x ∈ q.preorder, x.operator = .product ∧
      ∃ l r, x.inputs = [l, r] ∧ equation.Spans l.leafColumns r.leafColumns := by
  have hn : ∀ r ∈ q.scans, ⟨"x"⟩ ∈ r.statistics → ⟨"y"⟩ ∉ r.statistics := by
    have hall : ∀ r ∈ catalogue.relations, ⟨"x"⟩ ∈ r.statistics → ⟨"y"⟩ ∉ r.statistics := by decide
    exact fun r hr => hall r (sources_subset _ _ (hscans.mem_iff.mp hr))
  rw [straddled, sources_unary rfl, sources_sides] at hscans
  have hx : ⟨"x"⟩ ∈ q.leafColumns :=
    List.mem_flatMap.mpr ⟨_, hscans.mem_iff.mpr List.mem_cons_self, List.mem_cons_self⟩
  have hy : ⟨"y"⟩ ∈ q.leafColumns :=
    List.mem_flatMap.mpr ⟨_, hscans.mem_iff.mpr (List.mem_cons_of_mem _ List.mem_cons_self),
      List.mem_cons_self⟩
  obtain ⟨x, hx, l, r, hi, hspans⟩ := hq.exists_spanned hx hy hn
  refine ⟨x, hx, ?_, l, r, hi, hspans⟩
  obtain ⟨⟨_, hxe⟩, _⟩ := hq.of_mem hx
  cases hxe with
  | product _ _ _ => rfl
  | @join _ _ _ _ _ predicate _ _ _ he =>
      have hm : predicate ∈ q.predicates := List.mem_filterMap.mpr ⟨_, hx, rfl⟩
      rw [hpredicates predicate hm] at he
      cases he
  | scan _ _ | select _ _ _ | project _ _ _ => cases hi

/-- Products of relations without columns, with `2 ^ (n + 2) - 3` nodes. -/
def grove : Nat → Plan
  | 0 => ⟨.scan ⟨"e", ⟨0, []⟩⟩, [], 0, none⟩
  | n + 1 =>
      ⟨.product, [⟨.scan ⟨"e", ⟨0, []⟩⟩, [], 0, none⟩, ⟨.product, [grove n, grove n], 0, none⟩],
        0, none⟩

theorem hollow_grove (n : Nat) : Hollow catalogue (grove n) := by
  induction n with
  | zero => exact .scan rfl rfl
  | succ n ih => exact .product (.scan rfl rfl) (.product ih ih)

theorem size_grove (n : Nat) : (grove n).size + 3 = 2 ^ (n + 2) := by
  induction n with
  | zero => rfl
  | succ n ih =>
      simp only [grove, size, totalSize, pow_succ] at ih ⊢
      omega

/-- A plan with so many nodes that the number of the comparison comes again at the equation. -/
def crowded : Plan :=
  straddled (grove 30)

theorem size_grove_recurs : ((grove 30).size + 3) % 2 ^ 32 = 0 := by
  rw [size_grove]
  rfl

end Recurring

end QueryPlan
