import QueryPlan.Estimate

/-!
When an operator's output can be estimated, and what columns it has. A column is
usable when it is there and has values to divide by. No operator makes a column
usable that was not, or the other way round: comparing a column needs it usable
and leaves it so. What becomes of some of the columns depends on no others.
-/

namespace QueryPlan

theorem bind_eq_ok {ε α β : Type} {x : Except ε α} {f : α → Except ε β} {b : β} :
    x >>= f = .ok b ↔ ∃ a, x = .ok a ∧ f a = .ok b := by
  cases x with
  | error e =>
      constructor
      · intro h
        cases h
      · intro hx
        obtain ⟨_, h, _⟩ := hx
        cases h
  | ok a =>
      constructor
      · exact fun h => ⟨a, rfl, h⟩
      · intro hx
        obtain ⟨_, h, hf⟩ := hx
        cases h
        exact hf

theorem pure_eq_ok {ε α : Type} {a b : α} : (pure a : Except ε α) = .ok b ↔ b = a := by
  change Except.ok a = .ok b ↔ _
  rw [Except.ok.injEq, eq_comm]

/-- A factor held at the limit does not show in a product held there. -/
theorem Count.min_mul_min (a b c : Nat) : min (min a c * b) c = min (a * b) c := by
  obtain rfl | hb := Nat.eq_zero_or_pos b
  · simp
  · obtain ha | ha := Nat.le_total a c
    · rw [Nat.min_eq_left ha]
    · have hcb : c ≤ c * b := Nat.le_mul_of_pos_right c hb
      rw [Nat.min_eq_right ha, Nat.min_eq_right hcb,
        Nat.min_eq_right (Nat.le_trans hcb (Nat.mul_le_mul_right b ha))]

theorem Count.toNat_le_limit (n : Count) : n.toNat ≤ limit :=
  Nat.le_pred_of_lt n.toNat_lt_size

/-- The columns an operator looks up in the outputs below it. -/
def Operator.used : Operator → List Column
  | select p | join p => p.columns
  | project cs => cs
  | scan _ | product => []

namespace Statistics

variable {s t u : Statistics} {c : Column} {p : Predicate}

theorem resolve_eq_ok {a : Attribute} : s.resolve c = .ok a ↔ s.attribute? c = some a := by
  unfold resolve
  cases s.attribute? c <;> simp

theorem divisor_eq_ok {a : Attribute} {n : Count} :
    a.divisor = .ok n ↔ a.distinct ≠ 0 ∧ n = a.distinct := by
  unfold Attribute.divisor
  split <;> simp_all [eq_comm]

/-- The column is there, and has values to divide by. -/
def Usable (s : Statistics) (c : Column) : Prop :=
  ∃ a, s.attribute? c = some a ∧ a.distinct ≠ 0

theorem Usable.mem (h : s.Usable c) : c ∈ s := by
  obtain ⟨a, ha, _⟩ := h
  rw [← isSome_attribute?, ha]
  rfl

/-- Of these columns both have the same, and the same are usable. -/
def Alike (s t : Statistics) (cs : List Column) : Prop :=
  ∀ c ∈ cs, (c ∈ t ↔ c ∈ s) ∧ (t.Usable c ↔ s.Usable c)

theorem columns_mk (n : Count) (as : List Attribute) :
    (Statistics.mk n as).columns = as.map Attribute.column :=
  rfl

theorem attribute?_withDistinct (cs : List Column) (n k : Count) :
    (Statistics.mk k (s.withDistinct cs n)).attribute? c =
      (s.attribute? c).map fun a => if a.column ∈ cs then { a with distinct := n } else a := by
  have hf : ((fun a : Attribute => decide (a.column = c)) ∘
      fun a : Attribute => if a.column ∈ cs then { a with distinct := n } else a) =
      fun a : Attribute => decide (a.column = c) := by
    funext a
    simp only [Function.comp_apply]
    split <;> rfl
  simp only [attribute?, withDistinct, List.find?_map, hf]

/-- Giving usable columns another count than zero changes no column's use. -/
theorem usable_withDistinct {cs : List Column} {n k : Count} (hn : n ≠ 0)
    (hs : ∀ d ∈ cs, d ∈ s → s.Usable d) :
    (Statistics.mk k (s.withDistinct cs n)).Usable c ↔ s.Usable c := by
  simp only [Usable, attribute?_withDistinct, Option.map_eq_some_iff]
  constructor
  · intro hx
    obtain ⟨_, ⟨a, ha, rfl⟩, h⟩ := hx
    by_cases hc : c ∈ cs
    · have hm : c ∈ s := by rw [← isSome_attribute?, ha]; rfl
      exact hs c hc hm
    · rw [column_of_attribute? ha, if_neg hc] at h
      exact ⟨a, ha, h⟩
  · intro hx
    obtain ⟨a, ha, h⟩ := hx
    refine ⟨_, ⟨a, ha, rfl⟩, ?_⟩
    split
    · exact hn
    · exact h

theorem min_ne_zero {m n : Count} (hm : m ≠ 0) (hn : n ≠ 0) : min m n ≠ 0 := by
  change (if m ≤ n then m else n) ≠ 0
  split <;> assumption

theorem select_equalsValue {v : String} :
    s.select (.equalsValue c v) = .ok t ↔
      ∃ a, s.attribute? c = some a ∧ a.distinct ≠ 0 ∧
        t = ⟨s.tuples / a.distinct, s.withDistinct [c] 1⟩ := by
  simp only [select, bind_eq_ok, pure_eq_ok, resolve_eq_ok, divisor_eq_ok]
  constructor
  · intro hx
    obtain ⟨a, ha, n, ⟨h, rfl⟩, rfl⟩ := hx
    exact ⟨a, ha, h, rfl⟩
  · intro hx
    obtain ⟨a, ha, h, rfl⟩ := hx
    exact ⟨a, ha, _, ⟨h, rfl⟩, rfl⟩

theorem select_equalsColumn {l r : Column} :
    s.select (.equalsColumn l r) = .ok t ↔
      ∃ a b, s.attribute? l = some a ∧ s.attribute? r = some b ∧ a.distinct ≠ 0 ∧
        b.distinct ≠ 0 ∧
        t = ⟨s.tuples / max a.distinct b.distinct,
          s.withDistinct [l, r] (min a.distinct b.distinct)⟩ := by
  simp only [select, bind_eq_ok, pure_eq_ok, resolve_eq_ok, divisor_eq_ok]
  constructor
  · intro hx
    obtain ⟨a, ha, b, hb, _, ⟨hm, rfl⟩, _, ⟨hn, rfl⟩, rfl⟩ := hx
    exact ⟨a, b, ha, hb, hm, hn, rfl⟩
  · intro hx
    obtain ⟨a, b, ha, hb, hm, hn, rfl⟩ := hx
    exact ⟨a, ha, b, hb, _, ⟨hm, rfl⟩, _, ⟨hn, rfl⟩, rfl⟩

/-- A selection can be estimated when all its columns are usable. -/
theorem select_ok_iff : (∃ t, s.select p = .ok t) ↔ ∀ c ∈ p.columns, s.Usable c := by
  cases p with
  | equalsValue c v =>
      simp only [select_equalsValue, Predicate.columns, List.mem_singleton, forall_eq]
      constructor
      · intro hx
        obtain ⟨_, a, ha, h, _⟩ := hx
        exact ⟨a, ha, h⟩
      · intro hx
        obtain ⟨a, ha, h⟩ := hx
        exact ⟨_, a, ha, h, rfl⟩
  | equalsColumn l r =>
      simp only [select_equalsColumn, Predicate.columns, List.forall_mem_cons]
      constructor
      · intro hx
        obtain ⟨_, a, b, ha, hb, hm, hn, _⟩ := hx
        exact ⟨⟨a, ha, hm⟩, ⟨b, hb, hn⟩, fun _ h => nomatch h⟩
      · intro hx
        obtain ⟨⟨a, ha, hm⟩, ⟨b, hb, hn⟩, _⟩ := hx
        exact ⟨_, a, b, ha, hb, hm, hn, rfl⟩

theorem columns_select (h : s.select p = .ok t) : t.columns = s.columns := by
  cases p with
  | equalsValue c v =>
      obtain ⟨a, _, _, rfl⟩ := select_equalsValue.mp h
      exact columns_withDistinct s _ _
  | equalsColumn l r =>
      obtain ⟨a, b, _, _, _, _, rfl⟩ := select_equalsColumn.mp h
      exact columns_withDistinct s _ _

theorem covered_of_select (h : s.select p = .ok t) : p.CoveredBy s :=
  fun c hc => (select_ok_iff.mp ⟨t, h⟩ c hc).mem

theorem usable_select (h : s.select p = .ok t) : t.Usable c ↔ s.Usable c := by
  have hu := select_ok_iff.mp ⟨t, h⟩
  cases p with
  | equalsValue d v =>
      obtain ⟨a, _, _, rfl⟩ := select_equalsValue.mp h
      exact usable_withDistinct (by decide) fun e he _ => hu e he
  | equalsColumn l r =>
      obtain ⟨a, b, _, _, hm, hn, rfl⟩ := select_equalsColumn.mp h
      exact usable_withDistinct (min_ne_zero hm hn) fun e he _ => hu e he

theorem project_eq_ok {cs : List Column} :
    s.project cs = .ok t ↔
      (∀ c ∈ cs, c ∈ s) ∧ t = ⟨s.tuples, s.attributes.filter fun a => a.column ∈ cs⟩ := by
  have hf : (cs.forM fun c => discard (s.resolve c)) = .ok () ↔ ∀ c ∈ cs, c ∈ s := by
    induction cs with
    | nil => simp [List.forM, pure, Except.pure]
    | cons c cs ih =>
        rw [List.forM_eq_forM, List.forM_cons, bind_eq_ok, List.forall_mem_cons]
        rw [List.forM_eq_forM] at ih
        rw [← resolve_ok_iff, ← ih]
        cases hc : s.resolve c with
        | error e => simp [discard, Functor.discard, Functor.mapConst, Except.map]
        | ok a => simp [discard, Functor.discard, Functor.mapConst, Except.map]
  simp only [project, bind_eq_ok, pure_eq_ok]
  constructor
  · intro hx
    obtain ⟨⟨⟩, h, rfl⟩ := hx
    exact ⟨hf.mp h, rfl⟩
  · intro hx
    obtain ⟨h, rfl⟩ := hx
    exact ⟨(), hf.mpr h, rfl⟩

theorem columns_project {cs : List Column} (h : s.project cs = .ok t) :
    t.columns = s.columns.filter (· ∈ cs) := by
  obtain ⟨_, rfl⟩ := project_eq_ok.mp h
  simp only [columns, List.filter_map]
  rfl

theorem usable_project {cs : List Column} (h : s.project cs = .ok t) :
    t.Usable c ↔ c ∈ cs ∧ s.Usable c := by
  obtain ⟨_, rfl⟩ := project_eq_ok.mp h
  have hf : (s.attributes.filter fun a => a.column ∈ cs).find? (fun a => a.column = c) =
      if c ∈ cs then s.attribute? c else none := by
    rw [List.find?_filter, attribute?]
    split
    · rename_i hc
      congr 1
      funext a
      by_cases ha : a.column = c <;> simp [ha, hc]
    · rename_i hc
      rw [List.find?_eq_none]
      intro a _ ha
      simp only [decide_eq_true_eq] at ha
      exact hc (ha.2 ▸ ha.1)
  simp only [Usable, attribute?] at hf ⊢
  rw [hf]
  split <;> simp_all

theorem columns_product (s t : Statistics) : (s.product t).columns = s.columns ++ t.columns :=
  List.map_append ..

theorem attribute?_append (k : Count) (as bs : List Attribute) :
    (Statistics.mk k (as ++ bs)).attribute? c =
      ((Statistics.mk k as).attribute? c).or ((Statistics.mk k bs).attribute? c) :=
  List.find?_append ..

theorem usable_append {k : Count} {as bs : List Attribute} :
    (Statistics.mk k (as ++ bs)).Usable c ↔
      (Statistics.mk k as).Usable c ∨
        (c ∉ as.map Attribute.column ∧ (Statistics.mk k bs).Usable c) := by
  have hm : c ∈ as.map Attribute.column ↔ ∃ a, (Statistics.mk k as).attribute? c = some a := by
    rw [← Option.isSome_iff_exists, isSome_attribute?]
    rfl
  rw [hm]
  simp only [Usable, attribute?_append]
  cases (Statistics.mk k as).attribute? c <;> simp

theorem usable_product : (s.product t).Usable c ↔ s.Usable c ∨ (c ∉ s ∧ t.Usable c) :=
  usable_append

/-- The two columns of a join, the one of the left input first. -/
def JoinSides (s : Statistics) (p : Predicate) (c d : Column) : Prop :=
  (p = .equalsColumn c d ∧ c ∈ s) ∨ (p = .equalsColumn d c ∧ d ∉ s)

theorem JoinSides.mem_columns {d : Column} (h : JoinSides s p c d) :
    c ∈ p.columns ∧ d ∈ p.columns := by
  obtain ⟨rfl, _⟩ | ⟨rfl, _⟩ := h <;> simp [Predicate.columns]

theorem JoinSides.congr {d : Column} (h : JoinSides s p c d)
    (hs : ∀ e ∈ p.columns, (e ∈ t ↔ e ∈ s)) : JoinSides t p c d := by
  obtain ⟨hc, hd⟩ := h.mem_columns
  obtain ⟨hp, hm⟩ | ⟨hp, hm⟩ := h
  · exact .inl ⟨hp, (hs c hc).mpr hm⟩
  · exact .inr ⟨hp, fun ht => hm ((hs d hd).mp ht)⟩

theorem join_eq_ok :
    s.join t p = .ok u ↔
      ∃ c d a b, JoinSides s p c d ∧ s.attribute? c = some a ∧ t.attribute? d = some b ∧
        a.distinct ≠ 0 ∧ b.distinct ≠ 0 ∧
        u = ⟨Count.times s.tuples t.tuples / max a.distinct b.distinct,
          s.withDistinct [c] (min a.distinct b.distinct) ++
            t.withDistinct [d] (min a.distinct b.distinct)⟩ := by
  have hon (c d : Column) : join.joinOn s t c d = .ok u ↔
      ∃ a b, s.attribute? c = some a ∧ t.attribute? d = some b ∧
        a.distinct ≠ 0 ∧ b.distinct ≠ 0 ∧
        u = ⟨Count.times s.tuples t.tuples / max a.distinct b.distinct,
          s.withDistinct [c] (min a.distinct b.distinct) ++
            t.withDistinct [d] (min a.distinct b.distinct)⟩ := by
    simp only [join.joinOn, bind_eq_ok, pure_eq_ok, resolve_eq_ok, divisor_eq_ok]
    constructor
    · intro hx
      obtain ⟨a, ha, _, ⟨hm, rfl⟩, b, hb, _, ⟨hn, rfl⟩, rfl⟩ := hx
      exact ⟨a, b, ha, hb, hm, hn, rfl⟩
    · intro hx
      obtain ⟨a, b, ha, hb, hm, hn, rfl⟩ := hx
      exact ⟨a, ha, _, ⟨hm, rfl⟩, b, hb, _, ⟨hn, rfl⟩, rfl⟩
  cases p with
  | equalsValue c v => simp [join, JoinSides]
  | equalsColumn l r =>
      by_cases hl : l ∈ s
      · rw [join, if_pos hl, hon]
        constructor
        · intro hx
          obtain ⟨a, b, h⟩ := hx
          exact ⟨l, r, a, b, .inl ⟨rfl, hl⟩, h⟩
        · intro hx
          obtain ⟨c, d, a, b, ⟨⟨⟩, _⟩ | ⟨⟨⟩, hd⟩, h⟩ := hx
          · exact ⟨a, b, h⟩
          · exact absurd hl hd
      · rw [join, if_neg hl, hon]
        constructor
        · intro hx
          obtain ⟨a, b, h⟩ := hx
          exact ⟨r, l, a, b, .inr ⟨rfl, hl⟩, h⟩
        · intro hx
          obtain ⟨c, d, a, b, ⟨⟨⟩, hd⟩ | ⟨⟨⟩, _⟩, h⟩ := hx
          · exact absurd hd hl
          · exact ⟨a, b, h⟩

/-- A join can be estimated when the two columns compared are usable, one on each side. -/
theorem join_ok_iff :
    (∃ u, s.join t p = .ok u) ↔ ∃ c d, JoinSides s p c d ∧ s.Usable c ∧ t.Usable d := by
  simp only [join_eq_ok]
  constructor
  · intro hx
    obtain ⟨_, c, d, a, b, hj, ha, hb, hm, hn, _⟩ := hx
    exact ⟨c, d, hj, ⟨a, ha, hm⟩, ⟨b, hb, hn⟩⟩
  · intro hx
    obtain ⟨c, d, hj, ⟨a, ha, hm⟩, ⟨b, hb, hn⟩⟩ := hx
    exact ⟨_, c, d, a, b, hj, ha, hb, hm, hn, rfl⟩

theorem columns_join (h : s.join t p = .ok u) : u.columns = s.columns ++ t.columns := by
  obtain ⟨c, d, a, b, _, _, _, _, _, rfl⟩ := join_eq_ok.mp h
  rw [columns_mk, List.map_append, columns_withDistinct, columns_withDistinct]

theorem covered_of_join (h : s.join t p = .ok u) : p.CoveredBy u := by
  obtain ⟨c, d, hj, hc, hd⟩ := join_ok_iff.mp ⟨u, h⟩
  intro e he
  rw [mem_def, columns_join h, List.mem_append]
  obtain ⟨rfl, _⟩ | ⟨rfl, _⟩ := hj
  all_goals
    simp only [Predicate.columns, List.mem_cons, List.not_mem_nil, or_false] at he
    obtain rfl | rfl := he
  · exact .inl hc.mem
  · exact .inr hd.mem
  · exact .inr hd.mem
  · exact .inl hc.mem

theorem usable_join (h : s.join t p = .ok u) :
    u.Usable c ↔ s.Usable c ∨ (c ∉ s ∧ t.Usable c) := by
  obtain ⟨d, e, a, b, _, ha, hb, hm, hn, rfl⟩ := join_eq_ok.mp h
  have hmin := min_ne_zero hm hn
  have hs : ∀ x ∈ [d], x ∈ s → s.Usable x := by
    intro x hx _
    rw [List.mem_singleton.mp hx]
    exact ⟨a, ha, hm⟩
  have ht : ∀ x ∈ [e], x ∈ t → t.Usable x := by
    intro x hx _
    rw [List.mem_singleton.mp hx]
    exact ⟨b, hb, hn⟩
  rw [usable_append, usable_withDistinct hmin hs, usable_withDistinct hmin ht,
    columns_withDistinct]
  rfl

section Restrict

variable {cs ds : List Column}

/-- What is known of some of the columns. -/
def restrict (s : Statistics) (cs : List Column) : Statistics :=
  ⟨s.tuples, s.attributes.filter fun a => a.column ∈ cs⟩

theorem attribute?_restrict (hc : c ∈ cs) : (s.restrict cs).attribute? c = s.attribute? c := by
  rw [attribute?, attribute?, restrict, List.find?_filter]
  congr 1
  funext a
  by_cases ha : a.column = c <;> simp [ha, hc]

theorem mem_restrict (hc : c ∈ cs) : c ∈ s.restrict cs ↔ c ∈ s := by
  rw [← isSome_attribute?, attribute?_restrict hc, isSome_attribute?]

theorem restrict_restrict (h : ∀ c ∈ s, c ∈ ds → c ∈ cs) :
    (s.restrict cs).restrict ds = s.restrict ds := by
  simp only [restrict, List.filter_filter, mk.injEq, true_and]
  refine List.filter_congr fun a ha => ?_
  by_cases hd : a.column ∈ ds
  · simp [hd, h _ (List.mem_map_of_mem ha) hd]
  · simp [hd]

theorem restrict_congr (h : s.restrict cs = t.restrict cs) (hd : ds ⊆ cs) :
    s.restrict ds = t.restrict ds := by
  rw [← restrict_restrict fun _ _ hc => hd hc, h, restrict_restrict fun _ _ hc => hd hc]

theorem restrict_eq_self (h : s.columns ⊆ cs) : s.restrict cs = s := by
  have hf : s.attributes.filter (fun a => a.column ∈ cs) = s.attributes :=
    List.filter_eq_self.mpr fun a ha => decide_eq_true (h (List.mem_map_of_mem ha))
  rw [restrict, hf]

theorem withDistinct_restrict (s : Statistics) (cs ds : List Column) (n : Count) :
    (s.restrict cs).withDistinct ds n = (s.withDistinct ds n).filter fun a => a.column ∈ cs := by
  rw [withDistinct, withDistinct, restrict, List.filter_map]
  congr 1
  refine List.filter_congr fun a _ => ?_
  rw [Function.comp_apply]
  split <;> rfl

theorem select_restrict (h : s.select p = .ok t) (hp : p.columns ⊆ cs) :
    (s.restrict cs).select p = .ok (t.restrict cs) := by
  cases p with
  | equalsValue c v =>
      obtain ⟨a, ha, hn, rfl⟩ := select_equalsValue.mp h
      have hc : c ∈ cs := hp List.mem_cons_self
      refine select_equalsValue.mpr ⟨a, (attribute?_restrict hc).trans ha, hn, ?_⟩
      rw [withDistinct_restrict]
      rfl
  | equalsColumn l r =>
      obtain ⟨a, b, ha, hb, hm, hn, rfl⟩ := select_equalsColumn.mp h
      have hl : l ∈ cs := hp List.mem_cons_self
      have hr : r ∈ cs := hp (List.mem_cons_of_mem _ List.mem_cons_self)
      refine select_equalsColumn.mpr ⟨a, b, (attribute?_restrict hl).trans ha,
        (attribute?_restrict hr).trans hb, hm, hn, ?_⟩
      rw [withDistinct_restrict]
      rfl

theorem product_restrict (s t : Statistics) (cs : List Column) :
    (s.restrict cs).product (t.restrict cs) = (s.product t).restrict cs := by
  simp only [product, restrict, List.filter_append]

theorem join_restrict (h : s.join t p = .ok u) (hp : p.columns ⊆ cs) :
    (s.restrict cs).join (t.restrict cs) p = .ok (u.restrict cs) := by
  obtain ⟨c, d, a, b, hj, ha, hb, hm, hn, rfl⟩ := join_eq_ok.mp h
  obtain ⟨hc, hd⟩ := hj.mem_columns
  refine join_eq_ok.mpr ⟨c, d, a, b, hj.congr fun e he => mem_restrict (hp he),
    (attribute?_restrict (hp hc)).trans ha, (attribute?_restrict (hp hd)).trans hb, hm, hn, ?_⟩
  rw [withDistinct_restrict, withDistinct_restrict, restrict, List.filter_append]
  rfl

end Restrict

end Statistics
end QueryPlan
