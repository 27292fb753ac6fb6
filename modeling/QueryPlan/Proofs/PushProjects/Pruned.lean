import QueryPlan.Proofs.Conserved

/-!
Projecting early. `Pruned` is the rule as a relation: every node is made again over
pruned inputs, and `Trimmed` to the columns needed above it. Of these the plan
keeps those it had, and cut down to them its rows are the same.
-/

namespace QueryPlan.PushProjects

open Planner Plan

/-- A plan as it is, or below a projection to the columns needed. -/
inductive Trimmed (needed : List Column) (n : Nat) (p : Plan) : Nat → Plan → Prop
  | same (whole : (∀ c ∈ p.columns, c ∉ needed) ∨ p.columns ⊆ needed) : Trimmed needed n p n p
  | cut {q : Plan} (some : ∃ c ∈ p.columns, c ∈ needed) (dropped : ∃ c ∈ p.columns, c ∉ needed)
      (added : Added n (.project (p.columns.filter (· ∈ needed))) [p] q) :
      Trimmed needed n p (n + 1) q

/-- The columns needed, the plan below, and the numbers given out before and after. -/
inductive Pruned : List Column → Nat → Plan → Nat → Plan → Prop
  | scan {needed : List Column} {n m : Nat} {r : BaseRelation} {i : NodeId}
      {e : Option Statistics} {q : Plan} (trimmed : Trimmed needed n ⟨.scan r, [], i, e⟩ m q) :
      Pruned needed n ⟨.scan r, [], i, e⟩ m q
  | select {needed : List Column} {n m k : Nat} {predicate : Predicate} {q q' b p : Plan}
      {i : NodeId} {e : Option Statistics} {s : Statistics}
      (input : Pruned (needed ++ predicate.columns) n q m q')
      (added : Added m (.select predicate) [q'] b) (known : b.Estimated s)
      (trimmed : Trimmed needed (m + 1) b k p) : Pruned needed n ⟨.select predicate, [q], i, e⟩ k p
  | project {needed : List Column} {n m : Nat} {cs : List Column} {q q' : Plan} {i : NodeId}
      {e : Option Statistics} (input : Pruned (needed ++ cs) n q m q') :
      Pruned needed n ⟨.project cs, [q], i, e⟩ m q'
  | pair {needed : List Column} {n m k j : Nat} {op : Operator} {l r l' r' b p : Plan}
      {i : NodeId} {e : Option Statistics} {s : Statistics} (binary : op.arity = 2)
      (left : Pruned (needed ++ op.used) n l m l') (right : Pruned (needed ++ op.used) m r k r')
      (added : Added k op [l', r'] b) (known : b.Estimated s)
      (trimmed : Trimmed needed (k + 1) b j p) : Pruned needed n ⟨op, [l, r], i, e⟩ j p

theorem trimmed_of_returns {needed : List Column} {p q : Plan} {s t : Progress} {e : Statistics}
    (hp : p.Estimated e) (h : Returns (keepNeeded needed p) s q t) :
    Trimmed needed s.issued p t.issued q := by
  obtain ⟨s', u, lifted, h₁⟩ := returns_bind.mp h
  obtain ⟨output, hu⟩ := returns_lift.mp lifted
  obtain rfl := Except.ok.inj (hp.output_eq.symm.trans output)
  have hl : e.attributes.length = p.columns.length := by
    rw [← hp.columns_eq, Statistics.columns, List.length_map]
  dsimp only at h₁
  rw [hp.columns_eq, hl] at h₁
  split at h₁
  · rename_i hc
    obtain ⟨rfl, rfl⟩ := returns_pure.mp h₁
    rw [hu]
    refine .same ?_
    rw [Bool.or_eq_true, List.isEmpty_iff, List.filter_eq_nil_iff, decide_eq_true_iff,
      List.length_filter_eq_length_iff] at hc
    obtain hc | hc := hc
    · exact .inl fun c hm hn => hc c hm (decide_eq_true hn)
    · exact .inr fun c hm => of_decide_eq_true (hc c hm)
  · rename_i hc
    obtain ⟨_, v, reported, h₂⟩ := returns_bind.mp h₁
    obtain ⟨added, rfl⟩ := returns_addNode.mp h₂
    rw [returns_report.mp reported, hu] at added ⊢
    rw [Bool.or_eq_true, List.isEmpty_iff, List.filter_eq_nil_iff, decide_eq_true_iff,
      List.length_filter_eq_length_iff] at hc
    push Not at hc
    obtain ⟨⟨c, hm, hn⟩, ⟨d, hd, hx⟩⟩ := hc
    exact .cut ⟨c, hm, of_decide_eq_true hn⟩ ⟨d, hd, fun h => hx (decide_eq_true h)⟩ added

theorem pushAll_eq_mapM (needed : List Column) (ps : List Plan) :
    pushAll needed ps = ps.mapM (push needed) := by
  induction ps with
  | nil => rfl
  | cons p ps ih => rw [pushAll, List.mapM_cons, ih]

theorem Trimmed.known {needed : List Column} {n m : Nat} {p q : Plan} {s : Statistics}
    (h : Trimmed needed n p m q) (hp : p.Estimated s) : ∃ t, q.Estimated t := by
  cases h with
  | same _ => exact ⟨s, hp⟩
  | cut _ _ added =>
      exact added.unary hp rfl

theorem Pruned.known {needed : List Column} {n m : Nat} {p q : Plan} {s : Statistics}
    (h : Pruned needed n p m q) (hp : p.Estimated s) : ∃ t, q.Estimated t := by
  induction h generalizing s with
  | scan trimmed => exact trimmed.known hp
  | select _ _ known trimmed _ | pair _ _ _ _ known trimmed _ _ => exact trimmed.known known
  | project _ ih =>
      cases hp with
      | project _ hq _ => exact ih hq

theorem pruned_of_returns {needed : List Column} {p q : Plan} {s t : Progress} {e : Statistics}
    (hp : p.Estimated e) (h : Returns (push needed p) s q t) :
    Pruned needed s.issued p t.issued q := by
  induction hp generalizing needed s t q with
  | scan r i => exact .scan (trimmed_of_returns (.scan r i) h)
  | @select x a b predicate i hx he ih =>
      rw [push, pushAll_eq_mapM] at h
      obtain ⟨qs, u, pushed, h₁⟩ := returns_bind.mp h
      obtain ⟨x', hx', rfl⟩ := returns_mapM_one.mp pushed
      obtain ⟨y, v, made, kept⟩ := returns_bind.mp h₁
      obtain ⟨added, rfl⟩ := returns_addNode.mp made
      have input := ih hx'
      obtain ⟨_, hk⟩ := input.known hx
      obtain ⟨_, _, hy⟩ := added.select hk
      exact .select input added hy (trimmed_of_returns hy kept)
  | project i hq he ih =>
      rw [push] at h
      exact .project (ih h)
  | @product l r a b i hl hr ihl ihr =>
      rw [push, pushAll_eq_mapM] at h
      obtain ⟨qs, u, pushed, h₁⟩ := returns_bind.mp h
      obtain ⟨l', r', w, hl', hr', rfl⟩ := returns_mapM_two.mp pushed
      obtain ⟨y, v, made, kept⟩ := returns_bind.mp h₁
      obtain ⟨added, rfl⟩ := returns_addNode.mp made
      have left := ihl hl'
      have right := ihr hr'
      rw [← List.append_nil needed] at left right
      obtain ⟨_, hkl⟩ := left.known hl
      obtain ⟨_, hkr⟩ := right.known hr
      have hy := added.product hkl hkr
      exact .pair rfl left right added hy (trimmed_of_returns hy kept)
  | @join l r a b c predicate i hl hr he ihl ihr =>
      rw [push, pushAll_eq_mapM] at h
      obtain ⟨qs, u, pushed, h₁⟩ := returns_bind.mp h
      obtain ⟨l', r', w, hl', hr', rfl⟩ := returns_mapM_two.mp pushed
      obtain ⟨y, v, made, kept⟩ := returns_bind.mp h₁
      obtain ⟨added, rfl⟩ := returns_addNode.mp made
      have left := ihl hl'
      have right := ihr hr'
      obtain ⟨_, hkl⟩ := left.known hl
      obtain ⟨_, hkr⟩ := right.known hr
      obtain ⟨_, _, hy⟩ := added.join hkl hkr
      exact .pair rfl left right added hy (trimmed_of_returns hy kept)

namespace Trimmed

variable {needed : List Column} {n m : Nat} {p q : Plan} {db : Database}

theorem le (h : Trimmed needed n p m q) : n ≤ m := by
  cases h with
  | same _ => exact Nat.le_refl n
  | cut _ _ _ => exact Nat.le_succ n

theorem scans (h : Trimmed needed n p m q) : q.scans = p.scans := by
  cases h with
  | same _ => rfl
  | cut _ _ added =>
      cases added
      simp [Operator.relation?]

theorem predicates (h : Trimmed needed n p m q) : q.predicates = p.predicates := by
  cases h with
  | same _ => rfl
  | cut _ _ added =>
      cases added
      simp [Operator.predicate?]

theorem ids_eq (h : Trimmed needed n p m q) :
    (q.ids : Multiset NodeId) = p.ids + numbers n m := by
  cases h with
  | same _ => simp [numbers_self]
  | cut _ _ added =>
      cases added
      rw [ids_unary, numbers_succ, ← Multiset.cons_coe, ← Multiset.singleton_add, add_comm]

theorem filter_columns (h : Trimmed needed n p m q) :
    q.columns.filter (· ∈ needed) = p.columns.filter (· ∈ needed) := by
  cases h with
  | same _ => rfl
  | cut _ _ added =>
      cases added
      rw [Plan.columns, List.filter_filter]
      refine List.filter_congr fun c hc => ?_
      simp [hc]

/-- Unless nothing of it is needed, no more is left than is needed. -/
theorem columns_subset (h : Trimmed needed n p m q) {c : Column} (hc : c ∈ needed)
    (hp : c ∈ p.columns) : q.columns ⊆ needed := by
  cases h with
  | same whole => exact whole.resolve_left fun hn => hn c hp hc
  | cut _ _ added =>
      cases added
      intro d hd
      have hf := (List.mem_filter.mp hd).2
      simp only [List.mem_filter, decide_eq_true_eq] at hf
      exact hf.2

theorem columns_eq_nil (h : Trimmed needed n p m q) (hq : q.columns = []) : p.columns = [] := by
  cases h with
  | same _ => exact hq
  | cut some _ added =>
      cases added
      obtain ⟨c, hc, hn⟩ := some
      have hm : c ∈ (p.columns.filter (· ∈ needed)) := List.mem_filter.mpr ⟨hc, by simpa using hn⟩
      rw [Plan.columns, List.filter_eq_nil_iff] at hq
      exact absurd (decide_eq_true hm) (hq c hc)

/-- Cut down to the columns needed the rows are the same. -/
theorem rows (h : Trimmed needed n p m q) (hf : ∀ row ∈ p.rows db, row.Fills p.columns) :
    (q.rows db).map (Row.restrict needed) = (p.rows db).map (Row.restrict needed) := by
  cases h with
  | same _ => rfl
  | cut _ _ added =>
      cases added
      rw [Plan.rows, List.map_map]
      refine List.map_congr_left fun row hrow => (hf row hrow).restrict_restrict fun c hc hn => ?_
      exact List.mem_filter.mpr ⟨hc, decide_eq_true hn⟩

end Trimmed

theorem mem_of_shows {needed cs : List Column} {q : Plan} {i : NodeId} {e : Option Statistics}
    {s : Statistics} {c : Column} (hq : q.Estimated s)
    (hs : (Plan.mk (.project cs) [q] i e).Shows needed) (hc : c ∈ q.columns) (hn : c ∈ needed) :
    c ∈ cs := by
  have hm := hs c hn (by simpa [ownColumns] using hq.columns_subset hc)
  rw [Plan.columns, List.mem_filter, decide_eq_true_eq] at hm
  exact hm.2

theorem filter_of_filter {as bs cs ds : List Column}
    (h : as.filter (· ∈ ds) = bs.filter (· ∈ ds)) (hs : cs ⊆ ds) :
    as.filter (· ∈ cs) = bs.filter (· ∈ cs) := by
  have hcut (es : List Column) : (es.filter (· ∈ ds)).filter (· ∈ cs) = es.filter (· ∈ cs) := by
    rw [List.filter_filter]
    refine List.filter_congr fun c _ => ?_
    by_cases hc : c ∈ cs
    · simp [hc, hs hc]
    · simp [hc]
  rw [← hcut as, h, hcut bs]

namespace Pruned

variable {needed : List Column} {n m : Nat} {p q : Plan} {s : Statistics} {db : Database}

theorem le (h : Pruned needed n p m q) : n ≤ m := by
  induction h with
  | scan trimmed => exact trimmed.le
  | select _ _ _ trimmed ih =>
      have ht := trimmed.le
      omega
  | project _ ih => exact ih
  | pair _ _ _ _ _ trimmed ihl ihr =>
      have ht := trimmed.le
      omega

theorem scans (h : Pruned needed n p m q) : q.scans = p.scans := by
  induction h with
  | scan trimmed => exact trimmed.scans
  | select _ added _ trimmed ih =>
      cases added
      rw [trimmed.scans, scans_unary, scans_unary, ih]
  | project _ ih => simpa [Operator.relation?] using ih
  | pair _ _ _ added _ trimmed ihl ihr =>
      cases added
      rw [trimmed.scans, scans_binary, scans_binary, ihl, ihr]

theorem predicates (h : Pruned needed n p m q) : q.predicates = p.predicates := by
  induction h with
  | scan trimmed => exact trimmed.predicates
  | select _ added _ trimmed ih =>
      cases added
      rw [trimmed.predicates, predicates_unary, predicates_unary, ih]
  | project _ ih => simpa [Operator.predicate?] using ih
  | pair _ _ _ added _ trimmed ihl ihr =>
      cases added
      rw [trimmed.predicates, predicates_binary, predicates_binary, ihl, ihr]

theorem ids_le (h : Pruned needed n p m q) : (q.ids : Multiset NodeId) ≤ p.ids + numbers n m := by
  induction h with
  | scan trimmed => exact trimmed.ids_eq.le
  | select input added _ trimmed ih =>
      rw [trimmed.ids_eq]
      exact ids_le_of_add (added.ids_unary_le ih input.le) (Nat.le_succ_of_le input.le) trimmed.le
  | project _ ih =>
      rw [ids_unary, ← Multiset.cons_coe, Multiset.cons_add]
      exact ih.trans (Multiset.le_cons_self _ _)
  | pair _ left right added _ trimmed ihl ihr =>
      rw [trimmed.ids_eq]
      exact ids_le_of_add (added.ids_binary_le ihl left.le ihr right.le)
        (Nat.le_succ_of_le (left.le.trans right.le)) trimmed.le

/-- Of the columns needed all stay in sight, in their order. -/
theorem filter_columns (h : Pruned needed n p m q) (hp : p.Estimated s) (hd : p.DistinctColumns)
    (hs : p.Shows needed) :
    q.columns.filter (· ∈ needed) = p.columns.filter (· ∈ needed) := by
  induction h generalizing s with
  | scan trimmed => exact trimmed.filter_columns
  | select _ added _ trimmed ih =>
      cases added
      rw [trimmed.filter_columns, Plan.columns, Plan.columns]
      have hsq := hs.unary hp
      cases hp with
      | select _ hq _ => exact filter_of_filter (ih hq hd.unary hsq) (List.subset_append_left _ _)
  | @project needed _ _ cs x _ _ _ _ ih =>
      have hsq := hs.unary hp
      cases hp with
      | project _ hq _ =>
          rw [filter_of_filter (ih hq hd.unary hsq) (List.subset_append_left _ _), Plan.columns,
            List.filter_filter]
          refine List.filter_congr fun c hc => ?_
          by_cases hn : c ∈ needed
          · simp [hn, mem_of_shows hq hs hc hn]
          · simp [hn]
  | pair binary _ _ added _ trimmed ihl ihr =>
      cases added
      obtain ⟨hsl, hsr⟩ := hs.sides binary hp hd
      obtain ⟨_, ⟨_, hl⟩, ⟨_, hr⟩⟩ := hp.binary
      rw [trimmed.filter_columns, columns_binary binary, columns_binary binary,
        List.filter_append, List.filter_append,
        filter_of_filter (ihl hl hd.binary.1 hsl) (List.subset_append_left _ _),
        filter_of_filter (ihr hr hd.binary.2.1 hsr) (List.subset_append_left _ _)]

theorem columns (h : Pruned needed n p m q) (hp : p.Estimated s) (hd : p.DistinctColumns)
    (hs : p.Shows needed) {c : Column} (hc : c ∈ needed) : c ∈ q.columns ↔ c ∈ p.columns := by
  have hm : c ∈ q.columns.filter (· ∈ needed) ↔ c ∈ p.columns.filter (· ∈ needed) := by
    rw [h.filter_columns hp hd hs]
  simpa [hc] using hm

/-- Cut down to the columns needed the rows are the same. -/
theorem rows (h : Pruned needed n p m q) (hp : p.Estimated s) (hd : p.DistinctColumns)
    (hs : p.Shows needed) (hdb : p.Fitted db) :
    (q.rows db).map (Row.restrict needed) = (p.rows db).map (Row.restrict needed) := by
  induction h generalizing s with
  | scan trimmed => exact trimmed.rows (hp.fills hdb)
  | @select needed n m k predicate x x' b q i e t input added known trimmed ih =>
      have hfit : b.Fitted db := by
        cases added
        intro r hr
        apply hdb r
        rw [scans_unary, input.scans] at hr
        rwa [scans_unary]
      rw [trimmed.rows (known.fills hfit)]
      cases added
      have hsx := hs.unary hp
      cases hp with
      | select _ hx _ =>
          have hi := ih hx hd.unary hsx hdb.unary
          rw [Plan.rows, Plan.rows]
          refine filter_restrict (List.subset_append_left _ _) (fun row => ?_) hi
          exact decide_eq_decide.mpr (Row.satisfies_restrict (List.subset_append_right _ _))
  | @project needed _ _ cs x _ _ _ _ ih =>
      have hsx := hs.unary hp
      cases hp with
      | project _ hx _ =>
          have hfill := hx.fills hdb.unary
          have hi := filter_restrict (f := fun _ => true) (List.subset_append_left needed cs)
            (fun _ => rfl) (ih hx hd.unary hsx hdb.unary)
          rw [List.filter_true, List.filter_true] at hi
          rw [hi, Plan.rows, List.map_map]
          refine List.map_congr_left fun row hrow => ?_
          exact ((hfill row hrow).restrict_restrict fun _ => mem_of_shows hx hs).symm
  | @pair needed n m k j op l r l' r' b q i e t binary left right added known trimmed ihl ihr =>
      have hfit : b.Fitted db := by
        cases added
        intro d hd
        apply hdb d
        rw [scans_binary, left.scans, right.scans] at hd
        rwa [scans_binary]
      rw [trimmed.rows (known.fills hfit)]
      cases added
      obtain ⟨hsl, hsr⟩ := hs.sides binary hp hd
      obtain ⟨_, ⟨_, hl⟩, ⟨_, hr⟩⟩ := hp.binary
      have hi : (pairs (l'.rows db) (r'.rows db)).map (Row.restrict (needed ++ op.used)) =
          (pairs (l.rows db) (r.rows db)).map (Row.restrict (needed ++ op.used)) := by
        rw [pairs_restrict, pairs_restrict, ihl hl hd.binary.1 hsl hdb.binary.1,
          ihr hr hd.binary.2.1 hsr hdb.binary.2]
      rw [rows_binary binary, rows_binary binary]
      refine filter_restrict (List.subset_append_left _ _) (fun row => ?_) hi
      refine decide_eq_decide.mpr (forall₂_congr fun predicate hm => Row.satisfies_restrict ?_)
      obtain rfl | ⟨_, rfl⟩ := product_or_join binary
      · cases hm
      · rw [Operator.predicate?, Option.toList_some, List.mem_singleton] at hm
        rw [hm]
        exact List.subset_append_right _ _

/-- Unless nothing of it is needed, no more is left than is needed, if the projections at the top
list nothing else. -/
theorem columns_subset (h : Pruned needed n p m q) (hp : p.Estimated s) (hd : p.DistinctColumns)
    (hs : p.Shows needed) (hh : p.heading ⊆ needed) {c : Column} (hc : c ∈ needed)
    (hpc : c ∈ p.columns) : q.columns ⊆ needed := by
  induction h generalizing s with
  | scan trimmed => exact trimmed.columns_subset hc hpc
  | select input added _ trimmed _ =>
      cases added
      refine trimmed.columns_subset hc ?_
      have hsq := hs.unary hp
      cases hp with
      | select _ hq _ =>
          rw [Plan.columns] at hpc ⊢
          exact (input.columns hq hd.unary hsq (List.mem_append_left _ hc)).mpr hpc
  | project _ ih =>
      rw [heading, List.append_subset] at hh
      have hsq := hs.unary hp
      have hcq : c ∈ _ := (List.mem_filter.mp hpc).1
      cases hp with
      | project _ hq _ =>
          intro d hd'
          have hdn := ih hq hd.unary hsq (List.subset_append_of_subset_left _ hh.2)
            (List.mem_append_left _ hc) hcq hd'
          exact (List.mem_append.mp hdn).elim id fun hm => hh.1 hm
  | pair binary left right added _ trimmed _ _ =>
      cases added
      refine trimmed.columns_subset hc ?_
      obtain ⟨hsl, hsr⟩ := hs.sides binary hp hd
      obtain ⟨_, ⟨_, hl⟩, ⟨_, hr⟩⟩ := hp.binary
      rwa [columns_binary binary, List.mem_append,
        left.columns hl hd.binary.1 hsl (List.mem_append_left _ hc),
        right.columns hr hd.binary.2.1 hsr (List.mem_append_left _ hc), ← List.mem_append,
        ← columns_binary binary]

/-- Something is left of every relation that has a column. -/
theorem leafColumns_eq_nil (h : Pruned needed n p m q) (hq : q.columns = []) :
    p.leafColumns = [] := by
  induction h with
  | scan trimmed => simpa [ownColumns, Plan.columns] using trimmed.columns_eq_nil hq
  | select _ added _ trimmed ih =>
      cases added
      simpa [ownColumns] using ih (trimmed.columns_eq_nil hq)
  | project _ ih => simpa [ownColumns] using ih hq
  | pair binary _ _ added _ trimmed ihl ihr =>
      cases added
      have hlr := trimmed.columns_eq_nil hq
      rw [columns_binary binary, List.append_eq_nil_iff] at hlr
      obtain rfl | ⟨_, rfl⟩ := product_or_join binary
      all_goals simp [ownColumns, ihl hlr.1, ihr hlr.2]

end Pruned

end QueryPlan.PushProjects
