import QueryPlan.Proofs.Consistent
import QueryPlan.Proofs.Selected

/-!
Bounds on what is expected of a node. It has no more tuples than the relations scanned below
it multiply to, and just as many where nothing is compared, up to the limit of counts. Its
columns have no more values than in the relations they come from, and none of them runs out
of values.
-/

namespace QueryPlan

/-- Each of the second attributes is one of the first with at most as many values, though not
without any unless it had none. -/
def Narrowed (as bs : List Attribute) : Prop :=
  ∀ b ∈ bs, ∃ a ∈ as, a.column = b.column ∧ b.distinct ≤ a.distinct ∧
    (1 ≤ a.distinct → 1 ≤ b.distinct)

namespace Narrowed

variable {as bs cs ds : List Attribute}

theorem of_subset (h : bs ⊆ as) : Narrowed as bs :=
  fun b hb => ⟨b, h hb, rfl, UInt64.le_refl _, id⟩

theorem trans (h : Narrowed as bs) (h' : Narrowed bs cs) : Narrowed as cs := by
  intro c hc
  obtain ⟨b, hb, hbc, hle, hpos⟩ := h' c hc
  obtain ⟨a, ha, hab, hle', hpos'⟩ := h b hb
  exact ⟨a, ha, hab.trans hbc, UInt64.le_trans hle hle', fun hn => hpos (hpos' hn)⟩

theorem append (h : Narrowed as cs) (h' : Narrowed bs ds) : Narrowed (as ++ bs) (cs ++ ds) := by
  intro d hd
  obtain hd | hd := List.mem_append.mp hd
  · obtain ⟨a, ha, hn⟩ := h d hd
    exact ⟨a, List.mem_append_left _ ha, hn⟩
  · obtain ⟨a, ha, hn⟩ := h' d hd
    exact ⟨a, List.mem_append_right _ ha, hn⟩

end Narrowed

namespace Statistics

variable {s t u : Statistics} {p : Predicate} {c : Column} {n k : Count} {a : Attribute}

theorem attribute?_of_mem (h : s.columns.Nodup) (ha : a ∈ s.attributes) :
    s.attribute? a.column = some a := by
  have hm : a.column ∈ s := List.mem_map_of_mem ha
  obtain ⟨b, hb⟩ := Option.isSome_iff_exists.mp ((isSome_attribute? s a.column).mpr hm)
  rw [hb, List.inj_on_of_nodup_map h (List.mem_of_find?_eq_some hb) ha (column_of_attribute? hb)]

/-- A predicate leaves its columns some values, and no more than any of them had. -/
theorem Weighs.bounds (h : s.Weighs n k p) (hc : c ∈ p.columns) (ha : s.attribute? c = some a) :
    k ≤ a.distinct ∧ 1 ≤ k := by
  have hone {m : Count} (hm : m ≠ 0) : 1 ≤ m := by
    rw [UInt64.le_iff_toNat_le]
    exact Nat.one_le_iff_ne_zero.mpr fun h0 => hm (UInt64.toNat_inj.mp h0)
  cases p with
  | equalsValue d v =>
      obtain ⟨b, hb, hn, _, rfl⟩ := h
      obtain rfl := List.mem_singleton.mp hc
      obtain rfl := Option.some.inj (hb.symm.trans ha)
      exact ⟨hone hn, UInt64.le_refl _⟩
  | equalsColumn l r =>
      obtain ⟨b, d, hb, hd, hm, hn, _, rfl⟩ := h
      refine ⟨?_, hone (min_ne_zero hm hn)⟩
      simp only [Predicate.columns, List.mem_cons, List.not_mem_nil, or_false] at hc
      obtain rfl | rfl := hc
      · obtain rfl := Option.some.inj (hb.symm.trans ha)
        exact Std.min_le_left
      · obtain rfl := Option.some.inj (hd.symm.trans ha)
        exact Std.min_le_right

theorem narrowed_select (hs : s.columns.Nodup) (h : s.select p = .ok t) :
    Narrowed s.attributes t.attributes := by
  obtain ⟨n, k, hw, rfl⟩ := select_eq_ok.mp h
  intro b hb
  obtain ⟨a, ha, rfl⟩ := List.mem_map.mp hb
  refine ⟨a, ha, ?_⟩
  by_cases hc : a.column ∈ p.columns
  · obtain ⟨hle, hk⟩ := hw.bounds hc (attribute?_of_mem hs ha)
    simp only [if_pos hc, true_and]
    exact ⟨hle, fun _ => hk⟩
  · simp only [if_neg hc, true_and]
    exact ⟨UInt64.le_refl _, id⟩

theorem narrowed_project {cs : List Column} (h : s.project cs = .ok t) :
    Narrowed s.attributes t.attributes := by
  obtain ⟨_, rfl⟩ := project_eq_ok.mp h
  exact .of_subset (List.filter_subset_self _)

theorem tuples_join_le (h : s.join t p = .ok u) :
    u.tuples.toNat ≤ s.tuples.toNat * t.tuples.toNat := by
  obtain ⟨c, d, a, b, _, _, _, _, _, rfl⟩ := join_eq_ok.mp h
  have hle := UInt64.le_iff_toNat_le.mp
    (Count.div_le (Count.times s.tuples t.tuples) (max a.distinct b.distinct))
  rw [Count.toNat_times] at hle
  exact hle.trans (Nat.min_le_left _ _)

end Statistics

namespace Plan

variable {p q l r : Plan} {s t : Statistics} {op : Operator} {i : NodeId}
  {e : Option Statistics}

def leafAttributes (p : Plan) : List Attribute :=
  p.scans.flatMap fun r => r.statistics.attributes

def leafTuples (p : Plan) : Nat :=
  (p.scans.map fun r => r.statistics.tuples.toNat).prod

theorem leaf_unary (ho : op.relation? = none) :
    (Plan.mk op [q] i e).leafAttributes = q.leafAttributes ∧
      (Plan.mk op [q] i e).leafTuples = q.leafTuples := by
  simp [leafAttributes, leafTuples, ho]

theorem leaf_binary (ho : op.relation? = none) :
    (Plan.mk op [l, r] i e).leafAttributes = l.leafAttributes ++ r.leafAttributes ∧
      (Plan.mk op [l, r] i e).leafTuples = l.leafTuples * r.leafTuples := by
  simp [leafAttributes, leafTuples, ho]

namespace Estimated

theorem nodup_columns (h : p.Estimated s) (hd : p.DistinctColumns) : s.columns.Nodup :=
  h.columns_eq ▸ hd.sublist h.columns_sublist

theorem narrowed (h : p.Estimated s) (hd : p.DistinctColumns) :
    Narrowed p.leafAttributes s.attributes := by
  induction h with
  | scan r i => exact .of_subset (by simp [leafAttributes, Operator.relation?])
  | select i hq he ih =>
      rw [(leaf_unary rfl).1]
      exact (ih hd.unary).trans (Statistics.narrowed_select (hq.nodup_columns hd.unary) he)
  | project i hq he ih =>
      rw [(leaf_unary rfl).1]
      exact (ih hd.unary).trans (Statistics.narrowed_project he)
  | product i hl hr ihl ihr =>
      rw [(leaf_binary rfl).1]
      exact (ihl hd.binary.1).append (ihr hd.binary.2.1)
  | @join l r s t u predicate i hl hr he ihl ihr =>
      have hprod : (Plan.mk .product [l, r] i (some (s.product t))).DistinctColumns := by
        simpa [DistinctColumns, ownColumns] using hd
      have hselect := Statistics.select_of_join (hl.not_mem_right hr hd) he
      rw [(leaf_binary rfl).1]
      exact ((ihl hd.binary.1).append (ihr hd.binary.2.1)).trans
        (Statistics.narrowed_select ((Estimated.product i hl hr).nodup_columns hprod) hselect)

theorem tuples_le (h : p.Estimated s) : s.tuples.toNat ≤ p.leafTuples := by
  induction h with
  | scan r i => simp [leafTuples, Operator.relation?]
  | select i _ he ih =>
      rw [(leaf_unary rfl).2]
      exact (UInt64.le_iff_toNat_le.mp (Statistics.tuples_select_le he)).trans ih
  | project i _ he ih =>
      obtain ⟨_, rfl⟩ := Statistics.project_eq_ok.mp he
      rwa [(leaf_unary rfl).2]
  | product i _ _ ihl ihr =>
      rw [(leaf_binary rfl).2, Statistics.product, Count.toNat_times]
      exact (Nat.min_le_left _ _).trans (Nat.mul_le_mul ihl ihr)
  | join i _ _ he ihl ihr =>
      rw [(leaf_binary rfl).2]
      exact (Statistics.tuples_join_le he).trans (Nat.mul_le_mul ihl ihr)

/-- Nothing is lost but at the limit, however the products are nested. -/
theorem tuples_eq_min (h : p.Estimated s) (hp : p.predicates = []) :
    s.tuples.toNat = min p.leafTuples Count.limit := by
  induction h with
  | scan r i =>
      have hlimit := Nat.min_eq_left (Count.toNat_le_limit r.statistics.tuples)
      simpa [leafTuples, Operator.relation?] using hlimit.symm
  | select i _ _ _ | join i _ _ _ _ _ => simp [Operator.predicate?] at hp
  | project i _ he ih =>
      obtain ⟨_, rfl⟩ := Statistics.project_eq_ok.mp he
      rw [(leaf_unary rfl).2]
      exact ih (by simpa [Operator.predicate?] using hp)
  | product i _ _ ihl ihr =>
      simp only [predicates_binary, Operator.predicate?, Option.toList_none, List.nil_append,
        List.append_eq_nil_iff] at hp
      rw [(leaf_binary rfl).2, Statistics.product, Count.toNat_times, ihl hp.1, ihr hp.2,
        Count.min_mul_min, Nat.mul_comm, Count.min_mul_min, Nat.mul_comm]

end Estimated

/-- Whatever a plan is made of, its estimates keep within bounds at every node. There are no more
tuples than all pairings of those scanned below, and as many where nothing is compared, held at
the limit. No column has more values than in the relation it comes from, and if no relation has
a column without values, no node has one. -/
theorem reestimate_bounded (hd : p.DistinctColumns) (h : p.reestimate = .ok q) :
    ∀ x ∈ q.preorder, ∃ s, x.estimate = some s ∧
      s.tuples.toNat ≤ min x.leafTuples Count.limit ∧
      (x.predicates = [] → s.tuples.toNat = min x.leafTuples Count.limit) ∧
      (∀ b ∈ s.attributes, ∃ r ∈ x.scans, ∃ a ∈ r.statistics.attributes,
        a.column = b.column ∧ b.distinct ≤ a.distinct) ∧
      ((∀ r ∈ p.scans, ∀ a ∈ r.statistics.attributes, 1 ≤ a.distinct) →
        ∀ b ∈ s.attributes, 1 ≤ b.distinct) := by
  intro x hx
  obtain ⟨d, hq⟩ := estimated_of_reestimate p h
  have hscans := scans_of_operators (operators_of_reestimate p h)
  obtain ⟨⟨s, hs⟩, hsub⟩ := hq.of_mem hx
  have hdx : x.DistinctColumns := (hd.of_scans (.of_eq hscans)).sublist (hsub.flatMap _)
  have hnarrow := hs.narrowed hdx
  refine ⟨s, hs.estimate_eq, le_min hs.tuples_le (Count.toNat_le_limit _), hs.tuples_eq_min,
    fun b hb => ?_, fun hpos b hb => ?_⟩
  · obtain ⟨a, ha, hc, hle, _⟩ := hnarrow b hb
    obtain ⟨r, hr, har⟩ := List.mem_flatMap.mp ha
    exact ⟨r, hr, a, har, hc, hle⟩
  · obtain ⟨a, ha, _, _, hone⟩ := hnarrow b hb
    obtain ⟨r, hr, har⟩ := List.mem_flatMap.mp ha
    exact hone (hpos r (hscans ▸ hsub.subset hr) a har)

/-- A join over a projection and a product of too many pairs, with a selection on top. -/
def overfull : Plan :=
  ⟨.select (.equalsValue ⟨"x"⟩ "1"), [⟨.join (.equalsColumn ⟨"z"⟩ ⟨"x"⟩),
    [⟨.product,
      [⟨.scan ⟨"r", ⟨4611686018427387904, [⟨⟨"x"⟩, 3⟩]⟩⟩, [], 1, none⟩,
        ⟨.scan ⟨"s", ⟨7, [⟨⟨"y"⟩, 2⟩]⟩⟩, [], 2, none⟩], 3, none⟩,
      ⟨.project [⟨"z"⟩], [⟨.scan ⟨"t", ⟨1, [⟨⟨"z"⟩, 5⟩, ⟨⟨"w"⟩, 1⟩]⟩⟩, [], 4, none⟩], 5, none⟩],
    6, none⟩], 7, none⟩

theorem reestimate_bounded_overfull :
    ∃ q, overfull.reestimate = .ok q ∧ ∀ x ∈ q.preorder, ∃ s, x.estimate = some s ∧
      s.tuples.toNat ≤ min x.leafTuples Count.limit ∧ ∀ b ∈ s.attributes, 1 ≤ b.distinct := by
  have hpos : ∀ r ∈ overfull.scans, ∀ a ∈ r.statistics.attributes, 1 ≤ a.distinct := by
    decide
  refine ⟨_, rfl, fun x hx => ?_⟩
  obtain ⟨s, hs, hle, _, _, hone⟩ := reestimate_bounded (p := overfull) (by decide) rfl x hx
  exact ⟨s, hs, hle, hone hpos⟩

end Plan

end QueryPlan
