import QueryPlan.Semantics
import QueryPlan.Proofs.Estimated
import Mathlib.Data.List.Perm.Basic

/-!
Laws of rows and of their pairs. A row fills a list of columns when it has values
for exactly these. On rows that fill disjoint columns merging is commutative, and
a filter that looks at one side only may be put before the pairing or after it.
-/

namespace QueryPlan

namespace Row

variable {cs ds : List Column} {a b row : Row} {p : Predicate}

/-- The row has values for exactly these columns. -/
def Fills (row : Row) (cs : List Column) : Prop :=
  ∀ c, (row c).isSome ↔ c ∈ cs

theorem Fills.eq_none (h : row.Fills cs) {c : Column} (hc : c ∉ cs) : row c = none :=
  Option.not_isSome_iff_eq_none.mp fun hs => hc ((h c).mp hs)

theorem Fills.restrict (h : row.Fills cs) (ds : List Column) :
    (row.restrict ds).Fills (cs.filter (· ∈ ds)) := by
  intro c
  rw [Row.restrict, List.mem_filter]
  split <;> simp_all [Fills]

theorem Fills.merge (ha : a.Fills cs) (hb : b.Fills ds) : (a.merge b).Fills (cs ++ ds) := by
  intro c
  rw [Row.merge, Option.isSome_or, Bool.or_eq_true, ha c, hb c, List.mem_append]

theorem merge_comm (ha : a.Fills cs) (hb : b.Fills ds) (hd : cs.Disjoint ds) :
    a.merge b = b.merge a := by
  funext c
  by_cases hc : c ∈ cs
  · have hn : b c = none := hb.eq_none fun h => hd hc h
    simp [merge, hn]
  · have hn : a c = none := ha.eq_none hc
    simp [merge, hn]

theorem merge_assoc (a b d : Row) : (a.merge b).merge d = a.merge (b.merge d) := by
  funext c
  simp [merge, Option.or_assoc]

theorem restrict_merge (cs : List Column) (a b : Row) :
    (a.merge b).restrict cs = (a.restrict cs).merge (b.restrict cs) := by
  funext c
  by_cases hc : c ∈ cs <;> simp [merge, restrict, hc]

/-- Nothing is cut off a row that fills no other columns. -/
theorem restrict_of_subset (h : row.Fills cs) (hs : cs ⊆ ds) : row.restrict ds = row := by
  funext c
  by_cases hc : c ∈ ds
  · simp [restrict, hc]
  · have hn : row c = none := h.eq_none fun hm => hc (hs hm)
    simp [restrict, hc, hn]

theorem restrict_of_restrict (h : ds ⊆ cs) : (row.restrict cs).restrict ds = row.restrict ds := by
  funext c
  by_cases hd : c ∈ ds
  · simp [restrict, hd, h hd]
  · simp [restrict, hd]

/-- A first cut is not seen when what it takes off the row is cut off afterwards. -/
theorem Fills.restrict_restrict {es : List Column} (h : row.Fills es)
    (hs : ∀ c ∈ es, c ∈ ds → c ∈ cs) : (row.restrict cs).restrict ds = row.restrict ds := by
  funext c
  by_cases hd : c ∈ ds
  · by_cases he : c ∈ es
    · simp [Row.restrict, hd, hs c he hd]
    · simp [Row.restrict, hd, h.eq_none he]
  · simp [Row.restrict, hd]

theorem satisfies_restrict (h : p.columns ⊆ cs) :
    (row.restrict cs).Satisfies p ↔ row.Satisfies p :=
  satisfies_congr fun c hc => by simp [restrict, h hc]

theorem satisfies_merge_left (ha : a.Fills cs) (h : p.columns ⊆ cs) :
    (a.merge b).Satisfies p ↔ a.Satisfies p := by
  refine satisfies_congr fun c hc => ?_
  obtain ⟨v, hv⟩ := Option.isSome_iff_exists.mp ((ha c).mpr (h hc))
  simp [merge, hv]

theorem satisfies_merge_right (ha : a.Fills cs) (h : p.columns.Disjoint cs) :
    (a.merge b).Satisfies p ↔ b.Satisfies p := by
  refine satisfies_congr fun c hc => ?_
  have hn : a c = none := ha.eq_none fun hm => h hc hm
  simp [merge, hn]

end Row

/-- Rows that are the same as far as a filter looks are the same after it. -/
theorem filter_restrict {xs ys : List Row} {cs ds : List Column} {f : Row → Bool} (hs : cs ⊆ ds)
    (hf : ∀ row : Row, f (row.restrict ds) = f row)
    (h : xs.map (Row.restrict ds) = ys.map (Row.restrict ds)) :
    (xs.filter f).map (Row.restrict cs) = (ys.filter f).map (Row.restrict cs) := by
  have hr (zs : List Row) : (zs.filter f).map (Row.restrict cs) =
      ((zs.map (Row.restrict ds)).filter f).map (Row.restrict cs) := by
    have hfr : (f ∘ Row.restrict ds) = f := funext hf
    rw [List.filter_map, List.map_map, hfr]
    exact List.map_congr_left fun row _ => (Row.restrict_of_restrict hs).symm
  rw [hr xs, h, ← hr ys]

section Pairs

variable {xs xs' ys ys' zs : List Row} {f g : Row → Bool}

theorem mem_pairs {row : Row} : row ∈ pairs xs ys ↔ ∃ a ∈ xs, ∃ b ∈ ys, a.merge b = row := by
  simp [pairs]

theorem pairs_ne_nil (hx : xs ≠ []) (hy : ys ≠ []) : pairs xs ys ≠ [] := by
  obtain ⟨a, ha⟩ := List.exists_mem_of_ne_nil xs hx
  obtain ⟨b, hb⟩ := List.exists_mem_of_ne_nil ys hy
  exact List.ne_nil_of_mem (mem_pairs.mpr ⟨a, ha, b, hb, rfl⟩)

theorem pairs_perm (hx : xs.Perm xs') (hy : ys.Perm ys') : (pairs xs ys).Perm (pairs xs' ys') :=
  hx.flatMap fun a _ => hy.map fun b => a.merge b

theorem pairs_filter_left (h : ∀ a ∈ xs, ∀ b ∈ ys, f (a.merge b) = g a) :
    pairs (xs.filter g) ys = (pairs xs ys).filter f := by
  induction xs with
  | nil => rfl
  | cons a xs ih =>
      have hxs := ih fun a' ha' => h a' (List.mem_cons_of_mem _ ha')
      have ha : ∀ b ∈ ys, f (a.merge b) = g a := h a List.mem_cons_self
      simp only [pairs] at hxs
      simp only [pairs, List.filter_cons, List.flatMap_cons, List.filter_append, List.filter_map]
      rw [← hxs]
      by_cases hg : g a
      · have hf : ys.filter (f ∘ fun b => a.merge b) = ys :=
          List.filter_eq_self.mpr fun b hb => (ha b hb).trans hg
        simp [hg, hf]
      · have hf : ys.filter (f ∘ fun b => a.merge b) = [] := by
          refine List.filter_eq_nil_iff.mpr fun b hb hm => hg ?_
          exact (ha b hb).symm.trans hm
        simp [hg, hf]

theorem pairs_filter_right (h : ∀ a ∈ xs, ∀ b ∈ ys, f (a.merge b) = g b) :
    pairs xs (ys.filter g) = (pairs xs ys).filter f := by
  rw [pairs, pairs, List.filter_flatMap]
  refine List.flatMap_congr fun a ha => ?_
  rw [List.filter_map]
  congr 1
  exact List.filter_congr fun b hb => (h a ha b hb).symm

theorem pairs_satisfying_left {ps : List Predicate} {cs : List Column}
    (hx : ∀ a ∈ xs, a.Fills cs) (hp : ∀ p ∈ ps, p.columns ⊆ cs) :
    pairs (xs.filter fun row => ∀ p ∈ ps, row.Satisfies p) ys =
      (pairs xs ys).filter fun row => ∀ p ∈ ps, row.Satisfies p := by
  refine pairs_filter_left fun a ha b _ => decide_eq_decide.mpr (forall₂_congr fun p hm => ?_)
  exact Row.satisfies_merge_left (hx a ha) (hp p hm)

theorem pairs_satisfying_right {ps : List Predicate} {cs : List Column}
    (hx : ∀ a ∈ xs, a.Fills cs) (hp : ∀ p ∈ ps, p.columns.Disjoint cs) :
    pairs xs (ys.filter fun row => ∀ p ∈ ps, row.Satisfies p) =
      (pairs xs ys).filter fun row => ∀ p ∈ ps, row.Satisfies p := by
  refine pairs_filter_right fun a ha b _ => decide_eq_decide.mpr (forall₂_congr fun p hm => ?_)
  exact Row.satisfies_merge_right (hx a ha) (hp p hm)

theorem pairs_comm (h : ∀ a ∈ xs, ∀ b ∈ ys, a.merge b = b.merge a) :
    (pairs xs ys).Perm (pairs ys xs) := by
  induction xs with
  | nil => simp [pairs]
  | cons a xs ih =>
      have hxs := ih fun a' ha' => h a' (List.mem_cons_of_mem _ ha')
      have ha : ys.map (fun b => a.merge b) = ys.map (fun b => b.merge a) :=
        List.map_congr_left fun b hb => h a List.mem_cons_self b hb
      simp only [pairs, List.flatMap_cons, List.map_cons] at hxs ⊢
      rw [ha]
      apply (hxs.append_left _).trans
      clear h ih hxs ha
      induction ys with
      | nil => rfl
      | cons b ys ih =>
          simp only [List.map_cons, List.flatMap_cons, List.cons_append]
          apply List.Perm.cons _
          refine List.Perm.trans ?_ (ih.append_left _)
          rw [← List.append_assoc, ← List.append_assoc]
          exact List.perm_append_comm.append_right _

theorem pairs_assoc : pairs (pairs xs ys) zs = pairs xs (pairs ys zs) := by
  simp [pairs, List.flatMap_assoc, List.map_flatMap, List.flatMap_map, Row.merge_assoc,
    Function.comp_def]

theorem pairs_restrict (cs : List Column) :
    (pairs xs ys).map (Row.restrict cs) =
      pairs (xs.map (Row.restrict cs)) (ys.map (Row.restrict cs)) := by
  simp [pairs, List.map_flatMap, List.flatMap_map, Row.restrict_merge, Function.comp_def]

end Pairs

namespace Plan

/-- The stored rows of every relation scanned have its columns. -/
def Fitted (p : Plan) (db : Database) : Prop :=
  ∀ r ∈ p.scans, db.Fits r

variable {p q l r : Plan} {s : Statistics} {db : Database} {op : Operator} {i : NodeId}
  {e : Option Statistics}

theorem Fitted.unary (h : (Plan.mk op [q] i e).Fitted db) : q.Fitted db := by
  intro r hr
  exact h r (by simp [hr])

theorem Fitted.binary (h : (Plan.mk op [l, r] i e).Fitted db) : l.Fitted db ∧ r.Fitted db := by
  refine ⟨fun b hb => h b ?_, fun b hb => h b ?_⟩
  all_goals simp [hb]

theorem fitted_nil (p : Plan) : p.Fitted fun _ => [] :=
  fun _ _ _ hm => by cases hm

/-- A product is a join that compares nothing. -/
theorem rows_binary (h : op.arity = 2) :
    (Plan.mk op [l, r] i e).rows db = (pairs (l.rows db) (r.rows db)).filter fun row =>
      ∀ predicate ∈ op.predicate?.toList, row.Satisfies predicate := by
  obtain rfl | ⟨_, rfl⟩ := product_or_join h <;> simp [rows, Operator.predicate?]

/-- Where nothing is compared, no row is lost. -/
theorem Estimated.rows_ne_nil (h : p.Estimated s) (hn : p.predicates = [])
    (hdb : ∀ r ∈ p.scans, db r.name ≠ []) : p.rows db ≠ [] := by
  induction h with
  | scan r i => exact hdb r (by simp [Operator.relation?])
  | select i _ _ _ => simp [Operator.predicate?] at hn
  | project i _ _ ih =>
      simp only [predicates_unary, scans_unary, Operator.predicate?, Operator.relation?,
        Option.toList_none, List.nil_append] at hn hdb
      simpa [rows] using ih hn hdb
  | @product l r _ _ i _ _ ihl ihr =>
      simp only [predicates_binary, scans_binary, Operator.predicate?, Operator.relation?,
        Option.toList_none, List.nil_append, List.append_eq_nil_iff, List.forall_mem_append]
        at hn hdb
      exact pairs_ne_nil (ihl hn.1 hdb.1) (ihr hn.2 hdb.2)
  | join i _ _ _ _ _ => simp [Operator.predicate?] at hn

/-- The rows of a plan fill the columns of its output. -/
theorem Estimated.fills (h : p.Estimated s) (hf : p.Fitted db) :
    ∀ row ∈ p.rows db, row.Fills p.columns := by
  induction h with
  | scan r i => exact hf r (by simp [Operator.relation?])
  | select i _ _ ih =>
      intro row hrow
      rw [rows, List.mem_filter] at hrow
      exact ih hf.unary row hrow.1
  | project i _ _ ih =>
      intro row hrow
      rw [rows, List.mem_map] at hrow
      obtain ⟨a, ha, rfl⟩ := hrow
      exact (ih hf.unary a ha).restrict _
  | product i _ _ ihl ihr =>
      intro row hrow
      rw [rows, mem_pairs] at hrow
      obtain ⟨a, ha, b, hb, rfl⟩ := hrow
      exact (ihl hf.binary.1 a ha).merge (ihr hf.binary.2 b hb)
  | join i _ _ _ ihl ihr =>
      intro row hrow
      rw [rows, List.mem_filter, mem_pairs] at hrow
      obtain ⟨⟨a, ha, b, hb, rfl⟩, _⟩ := hrow
      exact (ihl hf.binary.1 a ha).merge (ihr hf.binary.2 b hb)

end Plan
end QueryPlan
