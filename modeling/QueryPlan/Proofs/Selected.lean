import QueryPlan.Proofs.Floating
import QueryPlan.Proofs.Nodes

/-!
Several predicates selected one after the other. Each divides the tuples by what its own
columns hold and leaves the counts of all other columns alone, so predicates that share no
column may be selected in any order. A join selects from the product of its inputs. What has
been selected below a product leaves no more tuples than what is selected above it, since
division rounds down.
-/

namespace QueryPlan

namespace Count

variable {a b c d : Count}

theorem max_comm (a b : Count) : max a b = max b a := by
  change (if a ≤ b then b else a) = if b ≤ a then a else b
  split <;> split
  · exact UInt64.le_antisymm ‹_› ‹_›
  · rfl
  · rfl
  · exact absurd (UInt64.le_total a b) (by simp [*])

theorem min_comm (a b : Count) : min a b = min b a := by
  change (if a ≤ b then a else b) = if b ≤ a then b else a
  split <;> split
  · exact UInt64.le_antisymm ‹_› ‹_›
  · rfl
  · rfl
  · exact absurd (UInt64.le_total a b) (by simp [*])

theorem div_right_comm (a b c : Count) : a / b / c = a / c / b := by
  rw [← UInt64.toNat_inj]
  simp only [UInt64.toNat_div]
  exact Nat.div_right_comm _ _ _

theorem div_le_div (h : a ≤ b) (c : Count) : a / c ≤ b / c := by
  rw [UInt64.le_iff_toNat_le] at h ⊢
  simp only [UInt64.toNat_div]
  exact Nat.div_le_div_right h

theorem div_le (a b : Count) : a / b ≤ a := by
  rw [UInt64.le_iff_toNat_le, UInt64.toNat_div]
  exact Nat.div_le_self _ _

theorem times_le_times (hac : a ≤ c) (hbd : b ≤ d) : times a b ≤ times c d := by
  rw [UInt64.le_iff_toNat_le] at hac hbd ⊢
  rw [toNat_times, toNat_times]
  exact min_le_min_right _ (Nat.mul_le_mul hac hbd)

/-- A product that is not held at the limit loses less by being divided than its factors do. -/
theorem times_div_le (h : a.toNat * b.toNat ≤ limit) (c : Count) :
    times (a / c) b ≤ times a b / c := by
  rw [UInt64.le_iff_toNat_le, UInt64.toNat_div, toNat_times, toNat_times, UInt64.toNat_div,
    Nat.min_eq_left h]
  refine (Nat.min_le_left _ _).trans ?_
  rw [Nat.mul_comm, Nat.mul_comm a.toNat]
  exact Nat.mul_div_le_mul_div_assoc _ _ _

end Count

namespace Predicate

/-- No two of the predicates compare a common column. -/
def Independent (ps : List Predicate) : Prop :=
  ps.Pairwise fun p q => p.columns.Disjoint q.columns

instance (ps : List Predicate) : Decidable (Independent ps) :=
  inferInstanceAs (Decidable (ps.Pairwise fun p q => ∀ c ∈ p.columns, c ∉ q.columns))

theorem Independent.perm {ps qs : List Predicate} (h : Independent ps) (hp : ps.Perm qs) :
    Independent qs :=
  (hp.pairwise_iff fun hd => hd.symm).mp h

theorem Independent.sublist {ps qs : List Predicate} (h : Independent ps) (hq : qs.Sublist ps) :
    Independent qs :=
  List.Pairwise.sublist hq h

end Predicate

namespace Plan

/-- Neither the predicates given nor those of the plan compare a column in common. -/
def Independent (p : Plan) (predicates : List Predicate) : Prop :=
  Predicate.Independent (predicates ++ p.predicates)

theorem predicate_sublist (p : Plan) : p.operator.predicate?.toList.Sublist p.predicates := by
  rw [predicates, preorder_eq, List.filterMap_cons]
  cases p.operator.predicate? with
  | none => exact List.nil_sublist _
  | some _ => exact List.singleton_sublist.mpr List.mem_cons_self

namespace Independent

variable {p q l r : Plan} {ps qs : List Predicate} {f : Floating} {op : Operator} {i j : NodeId}
  {e : Option Statistics} {predicate : Predicate}

theorem mono (h : p.Independent ps) (hq : qs.Sublist ps) : p.Independent qs :=
  h.sublist (hq.append (.refl _))

/-- The predicate of the topmost node beside some of those given. -/
theorem own (h : p.Independent ps) (hq : qs.Sublist ps) :
    Predicate.Independent (p.operator.predicate?.toList ++ qs) :=
  (h.sublist (hq.append p.predicate_sublist)).perm List.perm_append_comm

theorem input (h : (Plan.mk op [q] i e).Independent ps) : q.Independent ps := by
  rw [Independent, predicates_unary] at h
  exact h.sublist ((List.Sublist.refl ps).append (List.sublist_append_right _ _))

theorem select (h : (Plan.mk (.select predicate) [q] i e).Independent f.predicates) :
    q.Independent (f.add j predicate).predicates := by
  rw [Independent, predicates_unary] at h
  rw [Independent, Floating.predicates_add, List.append_assoc]
  exact h

theorem left (h : (Plan.mk op [l, r] i e).Independent ps) : l.Independent ps := by
  rw [Independent, predicates_binary] at h
  exact h.sublist ((List.Sublist.refl ps).append
    ((List.sublist_append_left _ _).trans (List.sublist_append_right _ _)))

theorem right (h : (Plan.mk op [l, r] i e).Independent ps) : r.Independent ps := by
  rw [Independent, predicates_binary] at h
  exact h.sublist ((List.Sublist.refl ps).append
    ((List.sublist_append_right _ _).trans (List.sublist_append_right _ _)))

theorem inputs (h : (Plan.mk op [l, r] i e).Independent ps) :
    l.Independent [] ∧ r.Independent [] :=
  ⟨h.left.mono (List.nil_sublist _), h.right.mono (List.nil_sublist _)⟩

end Independent

end Plan

namespace Statistics

open Predicate

variable {s t u : Statistics} {p q : Predicate} {ps qs : List Predicate} {n k : Count}
  {c : Column} {cs ds : List Column}

/-- The predicate divides the tuples by `n`, and leaves its columns `k` values. -/
def Weighs (s : Statistics) (n k : Count) : Predicate → Prop
  | .equalsValue c _ => ∃ a, s.attribute? c = some a ∧ a.distinct ≠ 0 ∧ n = a.distinct ∧ k = 1
  | .equalsColumn l r => ∃ a b, s.attribute? l = some a ∧ s.attribute? r = some b ∧
      a.distinct ≠ 0 ∧ b.distinct ≠ 0 ∧ n = max a.distinct b.distinct ∧
      k = min a.distinct b.distinct

theorem select_eq_ok :
    s.select p = .ok t ↔
      ∃ n k, s.Weighs n k p ∧ t = ⟨s.tuples / n, s.withDistinct p.columns k⟩ := by
  cases p with
  | equalsValue c v =>
      rw [select_equalsValue]
      constructor
      · intro hx
        obtain ⟨a, ha, h, rfl⟩ := hx
        exact ⟨_, _, ⟨a, ha, h, rfl, rfl⟩, rfl⟩
      · intro hx
        obtain ⟨_, _, ⟨a, ha, h, rfl, rfl⟩, rfl⟩ := hx
        exact ⟨a, ha, h, rfl⟩
  | equalsColumn l r =>
      rw [select_equalsColumn]
      constructor
      · intro hx
        obtain ⟨a, b, ha, hb, hm, hn, rfl⟩ := hx
        exact ⟨_, _, ⟨a, b, ha, hb, hm, hn, rfl, rfl⟩, rfl⟩
      · intro hx
        obtain ⟨_, _, ⟨a, b, ha, hb, hm, hn, rfl, rfl⟩, rfl⟩ := hx
        exact ⟨a, b, ha, hb, hm, hn, rfl⟩

/-- Only the compared columns matter. -/
theorem Weighs.congr (h : s.Weighs n k p)
    (ht : ∀ c ∈ p.columns, t.attribute? c = s.attribute? c) : t.Weighs n k p := by
  cases p with
  | equalsValue c v =>
      obtain ⟨a, ha, hw⟩ := h
      exact ⟨a, (ht c (by simp [Predicate.columns])).trans ha, hw⟩
  | equalsColumn l r =>
      obtain ⟨a, b, ha, hb, hw⟩ := h
      exact ⟨a, b, (ht l (by simp [Predicate.columns])).trans ha,
        (ht r (by simp [Predicate.columns])).trans hb, hw⟩

theorem Weighs.swapped (h : s.Weighs n k p) : s.Weighs n k p.swapped := by
  cases p with
  | equalsValue c v => exact h
  | equalsColumn l r =>
      obtain ⟨a, b, ha, hb, hm, hn, rfl, rfl⟩ := h
      exact ⟨b, a, hb, ha, hn, hm, Count.max_comm _ _, Count.min_comm _ _⟩

theorem attribute?_withDistinct_of_not_mem (hc : c ∉ cs) (n m : Count) :
    (Statistics.mk m (s.withDistinct cs n)).attribute? c = s.attribute? c := by
  rw [attribute?_withDistinct]
  cases ha : s.attribute? c with
  | none => rfl
  | some a => rw [Option.map_some, column_of_attribute? ha, if_neg hc]

theorem withDistinct_congr (h : ∀ c ∈ s, c ∈ cs ↔ c ∈ ds) (n : Count) :
    s.withDistinct cs n = s.withDistinct ds n :=
  List.map_congr_left fun a ha => by simp only [h a.column (List.mem_map_of_mem ha)]

theorem withDistinct_of_not_mem (h : ∀ c ∈ s, c ∉ cs) (n : Count) :
    s.withDistinct cs n = s.attributes :=
  (List.map_congr_left fun a ha => if_neg (h a.column (List.mem_map_of_mem ha))).trans
    (List.map_id' _)

theorem withDistinct_comm (hd : cs.Disjoint ds) (n m i j : Count) :
    (Statistics.mk i (s.withDistinct cs n)).withDistinct ds m =
      (Statistics.mk j (s.withDistinct ds m)).withDistinct cs n := by
  simp only [withDistinct, List.map_map]
  refine List.map_congr_left fun a _ => ?_
  simp only [Function.comp_apply]
  by_cases hc : a.column ∈ cs
  · have hn : a.column ∉ ds := fun hm => hd hc hm
    simp [hc, hn]
  · by_cases hm : a.column ∈ ds <;> simp [hc, hm]

theorem select_swapped (h : s.select p = .ok t) : s.select p.swapped = .ok t := by
  obtain ⟨n, k, hw, rfl⟩ := select_eq_ok.mp h
  refine select_eq_ok.mpr ⟨n, k, hw.swapped, ?_⟩
  rw [withDistinct_congr fun c _ => ?_]
  cases p with
  | equalsValue _ _ => rfl
  | equalsColumn l r => simp [swapped, Predicate.columns, or_comm]

/-- Where no column is shared, the other predicate may come first. -/
theorem select_comm (hd : p.columns.Disjoint q.columns) (h : s.select p = .ok t)
    (h' : t.select q = .ok u) : ∃ v, s.select q = .ok v ∧ v.select p = .ok u := by
  obtain ⟨n, k, hp, rfl⟩ := select_eq_ok.mp h
  obtain ⟨m, j, hq, rfl⟩ := select_eq_ok.mp h'
  have hqs : s.Weighs m j q := hq.congr fun c hc =>
    (attribute?_withDistinct_of_not_mem (fun hm => hd hm hc) _ _).symm
  have hpv : (Statistics.mk (s.tuples / m) (s.withDistinct q.columns j)).Weighs n k p :=
    hp.congr fun c hc => attribute?_withDistinct_of_not_mem (fun hm => hd hc hm) _ _
  refine ⟨_, select_eq_ok.mpr ⟨m, j, hqs, rfl⟩, select_eq_ok.mpr ⟨n, k, hpv, ?_⟩⟩
  rw [mk.injEq]
  exact ⟨Count.div_right_comm _ _ _, withDistinct_comm hd _ _ _ _⟩

theorem attribute?_product_left (hc : c ∈ s) : (s.product t).attribute? c = s.attribute? c := by
  rw [← isSome_attribute?] at hc
  rw [product, attribute?_append]
  exact Option.or_of_isSome hc

theorem attribute?_product_right (hc : c ∉ s) : (s.product t).attribute? c = t.attribute? c := by
  rw [← isSome_attribute?, Option.not_isSome_iff_eq_none] at hc
  rw [product, attribute?_append]
  exact (congrArg (Option.or · _) hc).trans Option.none_or

theorem withDistinct_product (cs : List Column) (n : Count) :
    (s.product t).withDistinct cs n = s.withDistinct cs n ++ t.withDistinct cs n :=
  List.map_append

/-- A join finds in its two inputs the attributes that a selection finds in their product. -/
theorem join_eq_select {d : Column} (hd : ∀ c ∈ s, c ∉ t) (hc : c ∈ s) (ht : d ∈ t) :
    s.join t (.equalsColumn c d) = (s.product t).select (.equalsColumn c d) := by
  have hds : d ∉ s := fun hs => hd d hs ht
  obtain ⟨a, ha⟩ := resolve_ok_iff.mpr hc
  obtain ⟨b, hb⟩ := resolve_ok_iff.mpr ht
  have hleft : (s.product t).resolve c = .ok a :=
    resolve_eq_ok.mpr ((attribute?_product_left hc).trans (resolve_eq_ok.mp ha))
  have hright : (s.product t).resolve d = .ok b :=
    resolve_eq_ok.mpr ((attribute?_product_right hds).trans (resolve_eq_ok.mp hb))
  have hs (n : Count) : s.withDistinct [c, d] n = s.withDistinct [c] n :=
    withDistinct_congr (fun e he => by simp [ne_of_mem_of_not_mem he hds]) n
  have ht (n : Count) : t.withDistinct [c, d] n = t.withDistinct [d] n :=
    withDistinct_congr (fun e he => by simp [ne_of_mem_of_not_mem he (hd c hc)]) n
  simp only [join, if_pos hc, join.joinOn, select, ha, hb, hleft, hright, withDistinct_product,
    hs, ht]
  rfl

/-- Which side of the predicate names which input does not matter to a join. -/
theorem join_swapped (hd : ∀ c ∈ s, c ∉ t) (hp : p.Links s t) :
    s.join t p.swapped = s.join t p := by
  cases p with
  | equalsValue c v => rfl
  | equalsColumn l r =>
      obtain ⟨hl, hr⟩ | ⟨hr, hl⟩ := hp
      · have hrs : r ∉ s := fun hs => hd r hs hr
        rw [swapped, join, join, if_neg hrs, if_pos hl]
      · have hls : l ∉ s := fun hs => hd l hs hl
        rw [swapped, join, join, if_pos hr, if_neg hls]

/-- A join selects from the product of its inputs. -/
theorem join_iff_select (hd : ∀ c ∈ s, c ∉ t) (hp : p.Links s t) :
    s.join t p = .ok u ↔ (s.product t).select p = .ok u := by
  cases p with
  | equalsValue c v => exact hp.elim
  | equalsColumn l r =>
      obtain ⟨hl, hr⟩ | ⟨hr, hl⟩ := id hp
      · rw [join_eq_select hd hl hr]
      · rw [← join_swapped hd hp, swapped, join_eq_select hd hr hl]
        exact ⟨select_swapped, select_swapped⟩

theorem links_of_join (h : s.join t p = .ok u) : p.Links s t := by
  obtain ⟨c, d, hj, hc, hd⟩ := join_ok_iff.mp ⟨u, h⟩
  obtain ⟨rfl, _⟩ | ⟨rfl, _⟩ := hj
  · exact .inl ⟨hc.mem, hd.mem⟩
  · exact .inr ⟨hc.mem, hd.mem⟩

theorem select_of_join (hd : ∀ c ∈ s, c ∉ t) (h : s.join t p = .ok u) :
    (s.product t).select p = .ok u :=
  (join_iff_select hd (links_of_join h)).mp h

/-- The tuples that satisfy all of the predicates, the first selected first. -/
def selectAll (s : Statistics) (ps : List Predicate) : Except Error Statistics :=
  ps.foldlM select s

theorem selectAll_nil : s.selectAll [] = .ok s :=
  rfl

theorem selectAll_cons :
    s.selectAll (p :: ps) = .ok u ↔ ∃ t, s.select p = .ok t ∧ t.selectAll ps = .ok u := by
  rw [selectAll, List.foldlM_cons, bind_eq_ok]
  rfl

theorem selectAll_singleton : s.selectAll [p] = s.select p := by
  rw [selectAll, List.foldlM_cons]
  exact bind_pure _

theorem selectAll_append :
    s.selectAll (ps ++ qs) = .ok u ↔ ∃ t, s.selectAll ps = .ok t ∧ t.selectAll qs = .ok u := by
  rw [selectAll, List.foldlM_append, bind_eq_ok]
  rfl

theorem selectAll_concat :
    s.selectAll (ps ++ [p]) = .ok u ↔ ∃ t, s.selectAll ps = .ok t ∧ t.select p = .ok u := by
  simp only [selectAll_append, selectAll_singleton]

theorem selectAll_perm (hp : ps.Perm qs) (hi : Independent ps) (h : s.selectAll ps = .ok u) :
    s.selectAll qs = .ok u := by
  induction hp generalizing s with
  | nil => exact h
  | cons p _ ih =>
      obtain ⟨t, ht, hps⟩ := selectAll_cons.mp h
      exact selectAll_cons.mpr ⟨t, ht, ih (List.pairwise_cons.mp hi).2 hps⟩
  | swap q p l =>
      obtain ⟨t, ht, hps⟩ := selectAll_cons.mp h
      obtain ⟨v, hv, hl⟩ := selectAll_cons.mp hps
      have hd := (List.pairwise_cons.mp hi).1 q List.mem_cons_self
      obtain ⟨w, hw, hwv⟩ := select_comm hd ht hv
      exact selectAll_cons.mpr ⟨w, hw, selectAll_cons.mpr ⟨v, hwv, hl⟩⟩
  | trans hp _ ih ih' => exact ih' (hi.perm hp) (ih hi h)

/-- What is selected last may be selected first. -/
theorem selectAll_of_last {s' : Statistics} (hi : Independent (p :: ps))
    (hs : s.select p = .ok s') (h : s.selectAll (ps ++ [p]) = .ok u) :
    s'.selectAll ps = .ok u := by
  have hperm : (ps ++ [p]).Perm (p :: ps) := List.perm_append_singleton p ps
  have hfirst := selectAll_perm hperm (hi.perm hperm.symm) h
  obtain ⟨t, ht, hps⟩ := selectAll_cons.mp hfirst
  rwa [Except.ok.inj (hs.symm.trans ht)]

theorem selectAll_restrict (h : s.selectAll ps = .ok t) (hc : ∀ p ∈ ps, p.columns ⊆ cs) :
    (s.restrict cs).selectAll ps = .ok (t.restrict cs) := by
  induction ps generalizing s with
  | nil =>
      rw [Except.ok.inj h]
      rfl
  | cons p ps ih =>
      rw [List.forall_mem_cons] at hc
      obtain ⟨u, hu, hps⟩ := selectAll_cons.mp h
      exact selectAll_cons.mpr ⟨_, select_restrict hu hc.1, ih hps hc.2⟩

/-- The same is known of the attributes, and there are no more tuples. -/
structure AtMost (s t : Statistics) : Prop where
  attributes : s.attributes = t.attributes
  tuples : s.tuples ≤ t.tuples

namespace AtMost

variable {s' t' : Statistics}

theorem refl (s : Statistics) : s.AtMost s :=
  ⟨rfl, UInt64.le_refl _⟩

theorem trans (h : s.AtMost t) (h' : t.AtMost u) : s.AtMost u :=
  ⟨h.attributes.trans h'.attributes, UInt64.le_trans h.tuples h'.tuples⟩

theorem select (h : s.AtMost t) (hs : s.select p = .ok s') :
    ∃ t', t.select p = .ok t' ∧ s'.AtMost t' := by
  obtain ⟨n, k, hw, rfl⟩ := select_eq_ok.mp hs
  have ht : t.Weighs n k p := hw.congr fun c _ => by rw [attribute?, attribute?, h.attributes]
  refine ⟨_, select_eq_ok.mpr ⟨n, k, ht, rfl⟩, ?_, Count.div_le_div h.tuples n⟩
  rw [withDistinct, withDistinct, h.attributes]

theorem selectAll (h : s.AtMost t) (hs : s.selectAll ps = .ok s') :
    ∃ t', t.selectAll ps = .ok t' ∧ s'.AtMost t' := by
  induction ps generalizing s t with
  | nil =>
      rw [← Except.ok.inj hs]
      exact ⟨t, rfl, h⟩
  | cons p ps ih =>
      obtain ⟨u, hu, hps⟩ := selectAll_cons.mp hs
      obtain ⟨v, hv, huv⟩ := h.select hu
      obtain ⟨t', ht', hle⟩ := ih huv hps
      exact ⟨t', selectAll_cons.mpr ⟨v, hv, ht'⟩, hle⟩

theorem product (hs : s.AtMost s') (ht : t.AtMost t') :
    (s.product t).AtMost (s'.product t') where
  attributes := by rw [Statistics.product, Statistics.product, hs.attributes, ht.attributes]
  tuples := Count.times_le_times hs.tuples ht.tuples

theorem restrict (h : s.AtMost t) (cs : List Column) : (s.restrict cs).AtMost (t.restrict cs) :=
  ⟨by rw [Statistics.restrict, Statistics.restrict, h.attributes], h.tuples⟩

end AtMost

section Product

variable {s' t' : Statistics}

theorem tuples_select_le (h : s.select p = .ok t) : t.tuples ≤ s.tuples := by
  obtain ⟨n, k, _, rfl⟩ := select_eq_ok.mp h
  exact Count.div_le _ _

theorem mem_select (h : s.select p = .ok t) : c ∈ t ↔ c ∈ s := by
  rw [mem_def, columns_select h, mem_def]

/-- To select from an input before it is multiplied leaves no more tuples, unless the pairs are
too many to be counted. -/
theorem select_product_left (hd : ∀ c ∈ s, c ∉ t)
    (hfit : s.tuples.toNat * t.tuples.toNat ≤ Count.limit) (h : s.select p = .ok s') :
    ∃ u, (s.product t).select p = .ok u ∧ (s'.product t).AtMost u := by
  have hcov := covered_of_select h
  obtain ⟨n, k, hw, rfl⟩ := select_eq_ok.mp h
  have hwp : (s.product t).Weighs n k p :=
    hw.congr fun c hc => attribute?_product_left (hcov c hc)
  refine ⟨_, select_eq_ok.mpr ⟨n, k, hwp, rfl⟩, ?_, Count.times_div_le hfit n⟩
  have ht : t.withDistinct p.columns k = t.attributes :=
    withDistinct_of_not_mem (fun c hc hm => hd c (hcov c hm) hc) k
  rw [withDistinct_product, ht]
  rfl

theorem select_product_right (hd : ∀ c ∈ s, c ∉ t)
    (hfit : s.tuples.toNat * t.tuples.toNat ≤ Count.limit) (h : t.select p = .ok t') :
    ∃ u, (s.product t).select p = .ok u ∧ (s.product t').AtMost u := by
  have hcov := covered_of_select h
  obtain ⟨n, k, hw, rfl⟩ := select_eq_ok.mp h
  have hns : ∀ c ∈ p.columns, c ∉ s := fun c hc hs => hd c hs (hcov c hc)
  have hwp : (s.product t).Weighs n k p :=
    hw.congr fun c hc => attribute?_product_right (hns c hc)
  refine ⟨_, select_eq_ok.mpr ⟨n, k, hwp, rfl⟩, ?_, ?_⟩
  · have hs : s.withDistinct p.columns k = s.attributes :=
      withDistinct_of_not_mem (fun c hc hm => hns c hm hc) k
    rw [withDistinct_product, hs]
    rfl
  · rw [product, product, Count.times_comm, Count.times_comm s.tuples]
    exact Count.times_div_le (Nat.mul_comm .. ▸ hfit) n

theorem selectAll_product_right (hd : ∀ c ∈ s, c ∉ t)
    (hfit : s.tuples.toNat * t.tuples.toNat ≤ Count.limit) (ht : t.selectAll qs = .ok t') :
    ∃ u, (s.product t).selectAll qs = .ok u ∧ (s.product t').AtMost u := by
  induction qs generalizing t with
  | nil =>
      obtain rfl := Except.ok.inj ht
      exact ⟨_, rfl, .refl _⟩
  | cons q qs ih =>
      obtain ⟨t₁, ht₁, hqs⟩ := selectAll_cons.mp ht
      have hd₁ : ∀ c ∈ s, c ∉ t₁ := fun c hc hm => hd c hc ((mem_select ht₁).mp hm)
      have hle : t₁.tuples.toNat ≤ t.tuples.toNat :=
        UInt64.le_iff_toNat_le.mp (tuples_select_le ht₁)
      obtain ⟨u, hu, hleu⟩ := ih hd₁ ((Nat.mul_le_mul_left _ hle).trans hfit) hqs
      obtain ⟨v, hv, hlev⟩ := select_product_right hd hfit ht₁
      obtain ⟨w, hw, hlew⟩ := hlev.selectAll hu
      exact ⟨w, selectAll_cons.mpr ⟨v, hv, hw⟩, hleu.trans hlew⟩

/-- Predicates selected from the two inputs leave no more tuples than all of them selected from
the product. -/
theorem selectAll_product (hd : ∀ c ∈ s, c ∉ t)
    (hfit : s.tuples.toNat * t.tuples.toNat ≤ Count.limit) (hs : s.selectAll ps = .ok s')
    (ht : t.selectAll qs = .ok t') :
    ∃ u, (s.product t).selectAll (ps ++ qs) = .ok u ∧ (s'.product t').AtMost u := by
  induction ps generalizing s with
  | nil =>
      obtain rfl := Except.ok.inj hs
      exact selectAll_product_right hd hfit ht
  | cons p ps ih =>
      obtain ⟨s₁, hs₁, hps⟩ := selectAll_cons.mp hs
      have hd₁ : ∀ c ∈ s₁, c ∉ t := fun c hc => hd c ((mem_select hs₁).mp hc)
      have hle : s₁.tuples.toNat ≤ s.tuples.toNat :=
        UInt64.le_iff_toNat_le.mp (tuples_select_le hs₁)
      obtain ⟨u, hu, hleu⟩ := ih hd₁ ((Nat.mul_le_mul_right _ hle).trans hfit) hps
      obtain ⟨v, hv, hlev⟩ := select_product_left hd hfit hs₁
      obtain ⟨w, hw, hlew⟩ := hlev.selectAll hu
      exact ⟨w, selectAll_cons.mpr ⟨v, hv, hw⟩, hleu.trans hlew⟩

end Product

end Statistics

/-- A join on an equation of its two inputs is estimated as the selection from their product,
which succeeds where the join does, and either side of the equation may come first. -/
theorem Operator.estimate_join_iff {s t : Statistics} {predicate : Predicate}
    (hd : (s.columns ++ t.columns).Nodup) (hp : predicate.Links s t) :
    (∀ u, (join predicate).estimate [s, t] = .ok u ↔
      (do (select predicate).estimate [← product.estimate [s, t]]) = .ok u) ∧
    (join predicate.swapped).estimate [s, t] = (join predicate).estimate [s, t] := by
  have hst : ∀ c ∈ s, c ∉ t := fun _ hs ht => List.disjoint_of_nodup_append hd hs ht
  constructor
  · intro u
    simp only [estimate, bind, Except.bind]
    exact Statistics.join_iff_select hst hp
  · exact Statistics.join_swapped hst hp

/-- The equation names the right input first, and the pairs are too many to be counted. -/
theorem Operator.estimate_join_iff_teeming :
    (do (select (.equalsColumn ⟨"z"⟩ ⟨"x"⟩)).estimate [← product.estimate
      [⟨4611686018427387904, [⟨⟨"x"⟩, 3⟩, ⟨⟨"y"⟩, 0⟩]⟩, ⟨7, [⟨⟨"z"⟩, 5⟩]⟩]]) =
        .ok ⟨3689348814741910323, [⟨⟨"x"⟩, 3⟩, ⟨⟨"y"⟩, 0⟩, ⟨⟨"z"⟩, 3⟩]⟩ ∧
    (join (.equalsColumn ⟨"x"⟩ ⟨"z"⟩)).estimate
      [⟨4611686018427387904, [⟨⟨"x"⟩, 3⟩, ⟨⟨"y"⟩, 0⟩]⟩, ⟨7, [⟨⟨"z"⟩, 5⟩]⟩] =
        .ok ⟨3689348814741910323, [⟨⟨"x"⟩, 3⟩, ⟨⟨"y"⟩, 0⟩, ⟨⟨"z"⟩, 3⟩]⟩ := by
  have hjoin : (join (.equalsColumn ⟨"z"⟩ ⟨"x"⟩)).estimate
      [⟨4611686018427387904, [⟨⟨"x"⟩, 3⟩, ⟨⟨"y"⟩, 0⟩]⟩, ⟨7, [⟨⟨"z"⟩, 5⟩]⟩] =
        .ok ⟨3689348814741910323, [⟨⟨"x"⟩, 3⟩, ⟨⟨"y"⟩, 0⟩, ⟨⟨"z"⟩, 3⟩]⟩ := by
    decide
  have h := @estimate_join_iff ⟨4611686018427387904, [⟨⟨"x"⟩, 3⟩, ⟨⟨"y"⟩, 0⟩]⟩
    ⟨7, [⟨⟨"z"⟩, 5⟩]⟩ (.equalsColumn ⟨"z"⟩ ⟨"x"⟩) (by decide) (by decide)
  exact ⟨(h.1 _).mp hjoin, h.2.trans hjoin⟩

open Statistics

/-- A stack of selections selects its predicates. -/
theorem Planner.Stacked.selectAll {n m : Nat} {p q : Plan} {predicates : List Predicate}
    {t : Statistics} (h : Stacked n p predicates m q) (hq : q.Estimated t) :
    ∃ s, p.Estimated s ∧ s.selectAll predicates = .ok t := by
  induction h with
  | nil => exact ⟨t, hq, rfl⟩
  | cons added _ ih =>
      obtain ⟨u, hu, hps⟩ := ih hq
      cases added
      cases hu with
      | select _ hs he => exact ⟨_, hs, selectAll_cons.mpr ⟨u, he, hps⟩⟩

/-- A join selects its predicate from the product of its inputs, and a product nothing. -/
theorem Plan.Estimated.selectAll_own {op : Operator} {l r : Plan} {i : NodeId}
    {e : Option Statistics} {s t u : Statistics} (h : (Plan.mk op [l, r] i e).Estimated u)
    (hl : l.Estimated s) (hr : r.Estimated t) (hd : (Plan.mk op [l, r] i e).DistinctColumns) :
    (s.product t).selectAll op.predicate?.toList = .ok u := by
  have hst := hl.not_mem_right hr hd
  cases h with
  | product _ hl' hr' => rw [hl.unique hl', hr.unique hr']; rfl
  | join _ hl' hr' he =>
      rw [← hl.unique hl', ← hr.unique hr'] at he
      exact selectAll_singleton.trans (select_of_join hst he)

end QueryPlan
