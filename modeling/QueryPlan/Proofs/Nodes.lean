import QueryPlan.Proofs.Returns
import QueryPlan.Proofs.Rows

/-!
New nodes and stacks of selections: what they scan, which predicates they carry,
which numbers they have, and which rows they return. A stack of selections keeps
the rows that satisfy all its predicates, and can be built when their columns
are in sight and usable.
-/

namespace QueryPlan.Planner

open Plan

variable {n m : Nat} {p q l r : Plan} {s t : Statistics} {predicate : Predicate}
  {predicates : List Predicate}

namespace Added

theorem select (h : Added n (.select predicate) [q] p) (hq : q.Estimated s) :
    ∃ t, s.select predicate = .ok t ∧ p.Estimated t := by
  obtain ⟨h⟩ := h
  rw [hq.estimated_unary] at h
  exact ⟨_, h, .select _ hq h⟩

theorem project {cs : List Column} (h : Added n (.project cs) [q] p) (hq : q.Estimated s) :
    ∃ t, s.project cs = .ok t ∧ p.Estimated t := by
  obtain ⟨h⟩ := h
  rw [hq.estimated_unary] at h
  exact ⟨_, h, .project _ hq h⟩

theorem product (h : Added n .product [l, r] p) (hl : l.Estimated s) (hr : r.Estimated t) :
    p.Estimated (s.product t) := by
  obtain ⟨h⟩ := h
  rw [hl.estimated_binary hr] at h
  cases h
  exact .product _ hl hr

theorem join (h : Added n (.join predicate) [l, r] p) (hl : l.Estimated s) (hr : r.Estimated t) :
    ∃ u, s.join t predicate = .ok u ∧ p.Estimated u := by
  obtain ⟨h⟩ := h
  rw [hl.estimated_binary hr] at h
  exact ⟨_, h, .join _ hl hr h⟩

theorem unary {op : Operator} (h : Added n op [q] p) (hq : q.Estimated s) (ho : op.arity = 1) :
    ∃ t, p.Estimated t := by
  cases op with
  | select _ =>
      obtain ⟨t, _, ht⟩ := h.select hq
      exact ⟨t, ht⟩
  | project _ =>
      obtain ⟨t, _, ht⟩ := h.project hq
      exact ⟨t, ht⟩
  | scan _ | product | join _ => cases ho

theorem binary {op : Operator} (h : Added n op [l, r] p) (hl : l.Estimated s) (hr : r.Estimated t)
    (ho : op.arity = 2) : ∃ u, p.Estimated u := by
  obtain rfl | ⟨_, rfl⟩ := product_or_join ho
  · exact ⟨_, h.product hl hr⟩
  · obtain ⟨u, _, hu⟩ := h.join hl hr
    exact ⟨u, hu⟩

/-- The estimate of a new node is that of its operator. -/
theorem estimate_unary {op : Operator} (h : Added n op [q] p) (hq : q.Estimated s)
    (hp : p.Estimated t) : op.estimate [s] = .ok t := by
  obtain ⟨h⟩ := h
  rw [hq.estimated_unary] at h
  rw [h, Option.some.inj hp.estimate_eq]

theorem estimate_binary {op : Operator} {u : Statistics} (h : Added n op [l, r] p)
    (hl : l.Estimated s) (hr : r.Estimated t) (hp : p.Estimated u) :
    op.estimate [s, t] = .ok u := by
  obtain ⟨h⟩ := h
  rw [hl.estimated_binary hr] at h
  rw [h, Option.some.inj hp.estimate_eq]

end Added

theorem added_select (n : Nat) (hq : q.Estimated s) (hu : ∀ c ∈ predicate.columns, s.Usable c) :
    ∃ p, Added n (.select predicate) [q] p := by
  obtain ⟨t, ht⟩ := Statistics.select_ok_iff.mpr hu
  exact ⟨_, .mk ((hq.estimated_unary _ _ _).trans ht)⟩

theorem added_project {cs : List Column} (n : Nat) (hq : q.Estimated s) (hc : ∀ c ∈ cs, c ∈ s) :
    ∃ p, Added n (.project cs) [q] p :=
  ⟨_, .mk ((hq.estimated_unary _ _ _).trans (Statistics.project_eq_ok.mpr ⟨hc, rfl⟩))⟩

theorem added_product (n : Nat) (hl : l.Estimated s) (hr : r.Estimated t) :
    ∃ p, Added n .product [l, r] p :=
  ⟨_, .mk (hl.estimated_binary hr _ _ _)⟩

theorem added_join {c d : Column} (n : Nat) (hl : l.Estimated s) (hr : r.Estimated t)
    (hj : Statistics.JoinSides s predicate c d) (hc : s.Usable c) (hd : t.Usable d) :
    ∃ p, Added n (.join predicate) [l, r] p := by
  obtain ⟨u, hu⟩ := Statistics.join_ok_iff.mpr ⟨c, d, hj, hc, hd⟩
  exact ⟨_, .mk ((hl.estimated_binary hr _ _ _).trans hu)⟩

/-- A node can be made again over other inputs that look alike to it. -/
theorem added_unary {op : Operator} {u s' : Statistics} {q' : Plan} {i : NodeId}
    {e : Option Statistics} (n : Nat) (h : (Plan.mk op [q] i e).Estimated u) (hq : q.Estimated s)
    (hq' : q'.Estimated s') (ha : Statistics.Alike s s' op.used) : ∃ p, Added n op [q'] p := by
  cases h with
  | @select _ s₁ _ predicate _ hq₁ he =>
      obtain rfl := hq.unique hq₁
      exact added_select n hq' fun c hc =>
        (ha c hc).2.mpr (Statistics.select_ok_iff.mp ⟨_, he⟩ c hc)
  | @project _ s₁ _ cs _ hq₁ he =>
      obtain rfl := hq.unique hq₁
      exact added_project n hq' fun c hc =>
        (ha c hc).1.mpr ((Statistics.project_eq_ok.mp he).1 c hc)

theorem added_binary {op : Operator} {u s' t' : Statistics} {l' r' : Plan} {i : NodeId}
    {e : Option Statistics} (n : Nat) (h : (Plan.mk op [l, r] i e).Estimated u)
    (hl : l.Estimated s) (hr : r.Estimated t) (hl' : l'.Estimated s') (hr' : r'.Estimated t')
    (hs : Statistics.Alike s s' op.used) (ht : Statistics.Alike t t' op.used) :
    ∃ p, Added n op [l', r'] p := by
  cases h with
  | product _ _ _ => exact added_product n hl' hr'
  | @join _ _ s₁ t₁ _ predicate _ hl₁ hr₁ he =>
      obtain rfl := hl.unique hl₁
      obtain rfl := hr.unique hr₁
      obtain ⟨c, d, hj, hc, hd⟩ := Statistics.join_ok_iff.mp ⟨_, he⟩
      obtain ⟨hcm, hdm⟩ := hj.mem_columns
      have hj' := hj.congr fun a ha => (hs a ha).1
      exact added_join n hl' hr' hj' ((hs c hcm).2.mpr hc) ((ht d hdm).2.mpr hd)

theorem Returns.addNode {x : Progress} {op : Operator} {qs : List Plan}
    (h : Added x.issued op qs p) :
    Returns (addNode op qs) x p ⟨x.issued + 1, x.events⟩ :=
  returns_addNode.mpr ⟨h, rfl⟩

/-- A count to which each node adds by its operator, a selection one. -/
structure Tally (w : Operator → Nat) (F : Plan → Nat) : Prop where
  unary (op : Operator) (q : Plan) (i : NodeId) (e : Option Statistics) :
    F ⟨op, [q], i, e⟩ = w op + F q
  binary (op : Operator) (l r : Plan) (i : NodeId) (e : Option Statistics) :
    F ⟨op, [l, r], i, e⟩ = w op + (F l + F r)
  select (predicate : Predicate) : w (.select predicate) = 1

theorem tally_predicates :
    Tally (fun op => op.predicate?.toList.length) fun p => p.predicates.length where
  unary op q i e := by simp
  binary op l r i e := by simp
  select predicate := rfl

theorem tally_ids : Tally (fun _ => 1) fun p => p.ids.length where
  unary op q i e := by simp [Nat.add_comm]
  binary op l r i e := by simp [Nat.add_comm]
  select predicate := rfl

namespace Stacked

theorem le (h : Stacked n p predicates m q) : n ≤ m := by
  induction h with
  | nil => exact Nat.le_refl _
  | cons _ _ ih => omega

theorem scans (h : Stacked n p predicates m q) : q.scans = p.scans := by
  induction h with
  | nil => rfl
  | cons added _ ih =>
      cases added
      simpa [Operator.relation?] using ih

theorem columns (h : Stacked n p predicates m q) : q.columns = p.columns := by
  induction h with
  | nil => rfl
  | cons added _ ih =>
      cases added
      simpa [Plan.columns] using ih

theorem usable {c : Column} (h : Stacked n p predicates m q) : q.Usable c ↔ p.Usable c := by
  induction h with
  | nil => rfl
  | cons added _ ih =>
      cases added
      simpa [Plan.Usable] using ih

theorem predicates_eq (h : Stacked n p predicates m q) :
    (q.predicates : Multiset Predicate) = predicates + p.predicates := by
  induction h with
  | nil => simp
  | @cons n m p q r predicate predicates added _ ih =>
      cases added
      rw [ih]
      simp [Operator.predicate?, ← Multiset.cons_coe]

theorem mem_predicates {x : Predicate} (h : Stacked n p predicates m q) :
    x ∈ q.predicates ↔ x ∈ predicates ∨ x ∈ p.predicates := by
  rw [← Multiset.mem_coe, h.predicates_eq, Multiset.mem_add, Multiset.mem_coe, Multiset.mem_coe]

theorem tally {w : Operator → Nat} {F : Plan → Nat} (h : Stacked n p predicates m q)
    (hF : Tally w F) : F q = predicates.length + F p := by
  induction h with
  | nil => simp
  | cons added _ ih =>
      cases added
      rw [ih, hF.unary, hF.select, List.length_cons]
      omega

/-- The new nodes have the numbers given out, whichever of the other numbers are looked at. -/
theorem numbers_eq {F : Plan → List NodeId} (h : Stacked n p predicates m q)
    (hF : ∀ op q i e, F ⟨op, [q], i, e⟩ = i :: F q) :
    (F q : Multiset NodeId) = F p + numbers n m := by
  induction h with
  | nil => simp [numbers_self]
  | @cons n m p q r predicate predicates added above ih =>
      cases added
      rw [ih, hF, ← numbers_add (Nat.le_succ n) above.le, numbers_succ,
        ← Multiset.cons_coe, ← Multiset.singleton_add, add_left_comm, add_assoc]

theorem ids_eq (h : Stacked n p predicates m q) :
    (q.ids : Multiset NodeId) = p.ids + numbers n m :=
  h.numbers_eq fun op _ _ _ => ids_unary op

theorem every {P : Operator → Prop} (h : Stacked n p predicates m q)
    (hs : ∀ predicate, P (.select predicate)) (hp : p.Every P) : q.Every P := by
  induction h with
  | nil => exact hp
  | cons added _ ih =>
      cases added
      exact ih ((every_unary _).mpr ⟨hs _, hp⟩)

theorem estimated (h : Stacked n p predicates m q) (hp : p.Estimated s) :
    ∃ t, q.Estimated t := by
  induction h generalizing s with
  | nil => exact ⟨s, hp⟩
  | cons added _ ih =>
      obtain ⟨t, _, ht⟩ := added.select hp
      exact ih ht

theorem rows (h : Stacked n p predicates m q) (db : Database) :
    q.rows db =
      (p.rows db).filter fun row => ∀ predicate ∈ predicates, row.Satisfies predicate := by
  induction h with
  | nil => simp
  | @cons n m p q r predicate predicates added _ ih =>
      cases added
      rw [ih, Plan.rows, List.filter_filter]
      refine List.filter_congr fun row _ => ?_
      simp [Bool.and_comm]

end Stacked

theorem cons_numbers (h : n ≤ m) :
    (.ofNat (m + 1) : NodeId) ::ₘ numbers n m = numbers n (m + 1) := by
  rw [← numbers_add h (Nat.le_succ m), numbers_succ, ← Multiset.singleton_add, add_comm]

theorem ids_le_of_add {k : Nat} {a b : Multiset NodeId} (ha : a ≤ b + numbers n m) (hn : n ≤ m)
    (hm : m ≤ k) : a + numbers m k ≤ b + numbers n k := by
  rw [← numbers_add hn hm, ← add_assoc]
  exact add_le_add ha (le_refl _)

theorem Added.ids_unary_le {op op' : Operator} {i : NodeId} {e : Option Statistics}
    (h : Added m op' [r] p) (hr : (r.ids : Multiset NodeId) ≤ q.ids + numbers n m) (hn : n ≤ m) :
    (p.ids : Multiset NodeId) ≤ (Plan.mk op [q] i e).ids + numbers n (m + 1) := by
  cases h
  have hs := ids_le_of_add hr hn (Nat.le_succ m)
  rw [numbers_succ] at hs
  rw [ids_unary, ids_unary, ← Multiset.cons_coe, ← Multiset.cons_coe, Multiset.cons_add,
    ← Multiset.singleton_add, add_comm]
  exact hs.trans (Multiset.le_cons_self _ _)

theorem Added.ids_binary_le {k : Nat} {op op' : Operator} {l' r' : Plan} {i : NodeId}
    {e : Option Statistics} (h : Added k op' [l', r'] p)
    (hl : (l'.ids : Multiset NodeId) ≤ l.ids + numbers n m) (hn : n ≤ m)
    (hr : (r'.ids : Multiset NodeId) ≤ r.ids + numbers m k) (hm : m ≤ k) :
    (p.ids : Multiset NodeId) ≤ (Plan.mk op [l, r] i e).ids + numbers n (k + 1) := by
  cases h
  rw [ids_binary, ids_binary, ← Multiset.cons_coe, ← Multiset.cons_coe, ← Multiset.coe_add,
    ← Multiset.coe_add, ← numbers_add (hn.trans hm) (Nat.le_succ k), numbers_succ,
    ← numbers_add hn hm]
  refine Multiset.le_iff_count.mpr fun a => ?_
  have hla := Multiset.le_iff_count.mp hl a
  have hra := Multiset.le_iff_count.mp hr a
  simp only [← Multiset.singleton_add, Multiset.count_add] at hla hra ⊢
  omega

/-- A stack can be built when its columns are in sight and usable. -/
theorem succeeds_stackSelections (hq : q.Estimated s) (x : Progress)
    (hu : ∀ predicate ∈ predicates, ∀ c ∈ predicate.columns, s.Usable c) :
    Succeeds (stackSelections q predicates) x := by
  induction predicates generalizing q s x with
  | nil => exact succeeds_pure
  | cons predicate predicates ih =>
      rw [List.forall_mem_cons] at hu
      obtain ⟨p, hp⟩ := added_select x.issued hq hu.1
      obtain ⟨t, ht, hpt⟩ := hp.select hq
      have hut : ∀ predicate ∈ predicates, ∀ c ∈ predicate.columns, t.Usable c :=
        fun _ hm c hc => (Statistics.usable_select ht).mpr (hu.2 _ hm c hc)
      exact (Returns.addNode hp).bind (ih hpt _ hut)

end QueryPlan.Planner
