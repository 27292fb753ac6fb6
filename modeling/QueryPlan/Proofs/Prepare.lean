import QueryPlan.Proofs.Conserved

/-!
The copy of a canonical plan. It has the canonical plan's operators over the
relations of the catalogue, new numbers throughout, and estimates. A copy can be
made when every column used is in sight and no column compared is blank.
-/

namespace QueryPlan

open Planner Plan

/-- The canonical plan, its copy, and the numbers given out before and after. -/
inductive Copied (c : Catalogue) : Nat → Plan → Nat → Plan → Prop
  | scan {n : Nat} {r b : BaseRelation} {q : Plan} {i : NodeId} {e : Option Statistics}
      (found : c.relation? r.name = some b) (added : Added n (.scan b) [] q) :
      Copied c n ⟨.scan r, [], i, e⟩ (n + 1) q
  | unary {n m : Nat} {op : Operator} {q q' p : Plan} {i : NodeId} {e : Option Statistics}
      (ho : op.arity = 1) (input : Copied c n q m q') (added : Added m op [q'] p) :
      Copied c n ⟨op, [q], i, e⟩ (m + 1) p
  | product {n m k : Nat} {l r l' r' p : Plan} {i : NodeId} {e : Option Statistics}
      (left : Copied c n l m l') (right : Copied c m r k r')
      (added : Added k .product [l', r'] p) : Copied c n ⟨.product, [l, r], i, e⟩ (k + 1) p

section Copy

variable {c : Catalogue} {p q l r : Plan} {ps qs : List Plan} {s t : Progress}

theorem prepareAll_eq_mapM (ps : List Plan) : prepareAll c ps = ps.mapM (prepare c) := by
  induction ps with
  | nil => rfl
  | cons p ps ih => rw [prepareAll, List.mapM_cons, ih]

theorem resolve_eq_ok {name : String} {b : BaseRelation} :
    c.resolve name = .ok b ↔ c.relation? name = some b := by
  unfold Catalogue.resolve
  cases c.relation? name <;> simp

/-- A node with a wrong number of inputs is not copied. -/
theorem arity_of_returns {op : Operator} {i : NodeId} {e : Option Statistics}
    (h : Returns (prepare c ⟨op, ps, i, e⟩) s q t) : ps.length = op.arity := by
  by_contra hn
  cases op
  all_goals
    simp only [prepare] at h
    rw [if_pos hn] at h
    obtain ⟨_, _, thrown, _⟩ := returns_bind.mp h
    exact returns_throw.mp thrown

theorem prepare_scan (c : Catalogue) (r : BaseRelation) (i : NodeId) (e : Option Statistics) :
    prepare c ⟨.scan r, [], i, e⟩ = liftM (c.resolve r.name) >>= fun b => addNode (.scan b) [] :=
  rfl

theorem prepare_unary {op : Operator} (ho : op.arity = 1) (i : NodeId) (e : Option Statistics) :
    prepare c ⟨op, [q], i, e⟩ = [q].mapM (prepare c) >>= addNode op := by
  rw [← prepareAll_eq_mapM]
  cases op with
  | select _ | project _ => rfl
  | scan _ | product | join _ => cases ho

theorem prepare_product (i : NodeId) (e : Option Statistics) :
    prepare c ⟨.product, [l, r], i, e⟩ = [l, r].mapM (prepare c) >>= addNode .product := by
  rw [← prepareAll_eq_mapM]
  rfl

theorem size_lt_unary {op : Operator} {i : NodeId} {e : Option Statistics} :
    q.size < (Plan.mk op [q] i e).size := by
  simp only [size, totalSize]
  omega

theorem size_lt_binary {op : Operator} {i : NodeId} {e : Option Statistics} :
    l.size < (Plan.mk op [l, r] i e).size ∧ r.size < (Plan.mk op [l, r] i e).size := by
  simp only [size, totalSize]
  omega

theorem copied_of_returns (h : Returns (prepare c p) s q t) : Copied c s.issued p t.issued q := by
  induction hn : p.size using Nat.strong_induction_on generalizing p q s t with
  | _ n ih =>
      subst hn
      obtain ⟨op, ps, i, e⟩ := p
      have ha := arity_of_returns h
      have unary {x : Plan} (ho : op.arity = 1)
          (h : Returns (prepare c ⟨op, [x], i, e⟩) s q t)
          (ih : ∀ {q : Plan} {s t : Progress}, Returns (prepare c x) s q t →
            Copied c s.issued x t.issued q) :
          Copied c s.issued ⟨op, [x], i, e⟩ t.issued q := by
        rw [prepare_unary ho] at h
        obtain ⟨qs, u, copied, made⟩ := returns_bind.mp h
        obtain ⟨x', hx, rfl⟩ := returns_mapM_one.mp copied
        obtain ⟨added, rfl⟩ := returns_addNode.mp made
        exact .unary ho (ih hx) added
      cases op with
      | scan r =>
          obtain rfl := List.length_eq_zero_iff.mp ha
          obtain ⟨b, u, lifted, made⟩ := returns_bind.mp h
          obtain ⟨found, rfl⟩ := returns_lift.mp lifted
          obtain ⟨added, rfl⟩ := returns_addNode.mp made
          exact .scan (resolve_eq_ok.mp found) added
      | select predicate | project cs =>
          obtain ⟨x, rfl⟩ := List.length_eq_one_iff.mp ha
          exact unary rfl h fun hx => ih _ size_lt_unary hx rfl
      | product =>
          obtain ⟨l, r, rfl⟩ := List.length_eq_two.mp ha
          rw [prepare_product] at h
          obtain ⟨qs, u, copied, made⟩ := returns_bind.mp h
          obtain ⟨l', r', v, hl, hr, rfl⟩ := returns_mapM_two.mp copied
          obtain ⟨added, rfl⟩ := returns_addNode.mp made
          exact .product (ih _ size_lt_binary.1 hl rfl) (ih _ size_lt_binary.2 hr rfl) added
      | join predicate =>
          simp only [prepare] at h
          rw [if_neg (not_not.mpr ha)] at h
          exact (returns_throw.mp h).elim

theorem returns_of_copied {n m : Nat} (h : Copied c n p m q) (hs : s.issued = n) :
    ∃ t, Returns (prepare c p) s q t ∧ t.issued = m := by
  induction h generalizing s with
  | scan found added =>
      subst hs
      refine ⟨⟨s.issued + 1, s.events⟩, ?_, rfl⟩
      rw [prepare_scan]
      exact returns_bind.mpr ⟨_, _, returns_of_ok (resolve_eq_ok.mpr found) s, .addNode added⟩
  | unary ho _ added ih =>
      obtain ⟨t, ht, rfl⟩ := ih hs
      refine ⟨⟨t.issued + 1, t.events⟩, ?_, rfl⟩
      rw [prepare_unary ho]
      exact returns_bind.mpr ⟨_, _, returns_mapM_one.mpr ⟨_, ht, rfl⟩, .addNode added⟩
  | product _ _ added ihl ihr =>
      obtain ⟨t, ht, rfl⟩ := ihl hs
      obtain ⟨u, hu, rfl⟩ := ihr rfl
      refine ⟨⟨u.issued + 1, u.events⟩, ?_, rfl⟩
      rw [prepare_product]
      exact returns_bind.mpr ⟨_, _, returns_mapM_two.mpr ⟨_, _, _, ht, hu, rfl⟩, .addNode added⟩

end Copy

section Relinked

variable {c : Catalogue} {q l r : Plan} {i : NodeId} {e : Option Statistics} {op : Operator}

theorem relinked_scan {b b' : BaseRelation} (hb : c.relation? b.name = some b') :
    (Plan.mk (.scan b) [] i e).relinked c = ⟨.scan b', [], i, e⟩ := by
  simp [relinked, relinkedAll, hb]

theorem relinked_unary (ho : op.arity = 1) :
    (Plan.mk op [q] i e).relinked c = ⟨op, [q.relinked c], i, e⟩ := by
  cases op with
  | select _ | project _ => rfl
  | scan _ | product | join _ => cases ho

theorem relinked_product :
    (Plan.mk .product [l, r] i e).relinked c = ⟨.product, [l.relinked c, r.relinked c], i, e⟩ :=
  rfl

theorem sources_subset (c : Catalogue) (p : Plan) : p.sources c ⊆ c.relations := by
  intro b hb
  obtain ⟨_, _, found⟩ := List.mem_filterMap.mp hb
  exact List.mem_of_find?_eq_some found

theorem sources_unary (ho : op.arity = 1) : (Plan.mk op [q] i e).sources c = q.sources c := by
  cases op with
  | select _ | project _ => simp [sources, Operator.relation?]
  | scan _ | product | join _ => cases ho

theorem sources_product :
    (Plan.mk .product [l, r] i e).sources c = l.sources c ++ r.sources c := by
  simp [sources, Operator.relation?]

theorem wellShaped_unary : (Plan.mk op [q] i e).WellShaped ↔ op.arity = 1 ∧ q.WellShaped := by
  rw [WellShaped, preorder_unary, List.forall_mem_cons, List.length_singleton, eq_comm]
  rfl

theorem wellShaped_binary :
    (Plan.mk op [l, r] i e).WellShaped ↔ op.arity = 2 ∧ l.WellShaped ∧ r.WellShaped := by
  rw [WellShaped, preorder_binary, List.forall_mem_cons, List.forall_mem_append, eq_comm]
  rfl

end Relinked

namespace Copied

variable {c : Catalogue} {n m : Nat} {p q : Plan}

theorem scan_inv {r : BaseRelation} {i : NodeId} {e : Option Statistics}
    (h : Copied c n ⟨.scan r, [], i, e⟩ m q) :
    ∃ b d, c.relation? r.name = some b ∧ m = n + 1 ∧ q = ⟨.scan b, [], .ofNat (n + 1), d⟩ := by
  cases h with
  | scan found added =>
      cases added
      exact ⟨_, _, found, rfl, rfl⟩

theorem unary_inv {op : Operator} {l : Plan} {i : NodeId} {e : Option Statistics}
    (h : Copied c n ⟨op, [l], i, e⟩ m q) :
    ∃ k l' d, Copied c n l k l' ∧ m = k + 1 ∧ q = ⟨op, [l'], .ofNat (k + 1), d⟩ := by
  cases h with
  | unary _ input added =>
      cases added
      exact ⟨_, _, _, input, rfl, rfl⟩

theorem product_inv {l r : Plan} {i : NodeId} {e : Option Statistics}
    (h : Copied c n ⟨.product, [l, r], i, e⟩ m q) :
    ∃ j k l' r' d, Copied c n l j l' ∧ Copied c j r k r' ∧ m = k + 1 ∧
      q = ⟨.product, [l', r'], .ofNat (k + 1), d⟩ := by
  cases h with
  | product left right added =>
      cases added
      exact ⟨_, _, _, _, _, left, right, rfl, rfl⟩

/-- A copy takes one number for each node. -/
theorem issued_eq (h : Copied c n p m q) : m = n + p.size := by
  induction h with
  | scan _ _ => rfl
  | unary _ _ _ ih | product _ _ _ ihl ihr =>
      simp only [size, totalSize]
      omega

theorem le (h : Copied c n p m q) : n ≤ m := by
  have hm := h.issued_eq
  omega

theorem known (h : Copied c n p m q) : ∃ s, q.Estimated s := by
  induction h with
  | scan _ added =>
      obtain ⟨he⟩ := added
      cases he
      exact ⟨_, .scan _ _⟩
  | @unary _ _ op _ _ _ _ _ ho _ added ih =>
      obtain ⟨s, hs⟩ := ih
      cases op with
      | select predicate =>
          exact added.unary hs rfl
      | project cs =>
          exact added.unary hs rfl
      | scan _ | product | join _ => cases ho
  | product _ _ added ihl ihr =>
      obtain ⟨s, hs⟩ := ihl
      obtain ⟨t, ht⟩ := ihr
      exact ⟨_, added.product hs ht⟩

theorem ids_eq (h : Copied c n p m q) : (q.ids : Multiset NodeId) = numbers n m := by
  induction h with
  | scan _ added =>
      cases added
      rw [ids_leaf, numbers_succ]
      rfl
  | unary _ input added ih =>
      cases added
      rw [ids_unary, ← Multiset.cons_coe, ih, ← numbers_add input.le (Nat.le_succ _), numbers_succ,
        ← Multiset.singleton_add, add_comm]
  | product left right added ihl ihr =>
      cases added
      rw [ids_binary, ← Multiset.cons_coe, ← Multiset.coe_add, ihl, ihr,
        numbers_add left.le right.le, ← numbers_add (left.le.trans right.le) (Nat.le_succ _),
        numbers_succ, ← Multiset.singleton_add, add_comm]

theorem scans (h : Copied c n p m q) : q.scans = p.sources c := by
  induction h with
  | scan found added =>
      cases added
      simp [sources, Operator.relation?, found]
  | @unary _ _ op _ _ _ _ _ ho _ added ih =>
      cases added
      rw [sources_unary ho, ← ih, scans_unary]
      cases op with
      | select _ | project _ => rfl
      | scan _ | product | join _ => cases ho
  | product _ _ added ihl ihr =>
      cases added
      rw [sources_product, scans_binary, ihl, ihr]
      rfl

theorem predicates (h : Copied c n p m q) : q.predicates = p.predicates := by
  induction h with
  | scan _ added =>
      cases added
      rfl
  | unary _ _ added ih =>
      cases added
      rw [predicates_unary, predicates_unary, ih]
  | product _ _ added ihl ihr =>
      cases added
      rw [predicates_binary, predicates_binary, ihl, ihr]

theorem columns (h : Copied c n p m q) : q.columns = (p.relinked c).columns := by
  induction h with
  | scan found added =>
      cases added
      rw [relinked_scan found, Plan.columns, Plan.columns]
  | @unary _ _ op _ _ _ _ _ ho _ added ih =>
      cases added
      rw [relinked_unary ho]
      cases op with
      | select _ | project _ => rw [Plan.columns, Plan.columns, ih]
      | scan _ | product | join _ => cases ho
  | product _ _ added ihl ihr =>
      cases added
      rw [relinked_product, Plan.columns, Plan.columns, ihl, ihr]

theorem chain (h : Copied c n p m q) : q.chain = p.chain := by
  induction h with
  | scan _ added =>
      cases added
      rfl
  | @unary _ _ op _ _ _ _ _ ho _ added ih =>
      cases added
      cases op with
      | select _ | project _ => rw [Plan.chain, Plan.chain, ih]
      | scan _ | product | join _ => cases ho
  | product _ _ added ihl _ =>
      cases added
      rw [Plan.chain, Plan.chain, ihl]

theorem rows (h : Copied c n p m q) (db : Database) : q.rows db = p.rows db := by
  induction h with
  | @scan _ r b q _ _ found added =>
      cases added
      rw [Plan.rows, Plan.rows, Catalogue.name_of_relation? found]
  | @unary _ _ op _ _ _ _ _ ho _ added ih =>
      cases added
      cases op with
      | select _ | project _ => rw [Plan.rows, Plan.rows, ih]
      | scan _ | product | join _ => cases ho
  | product _ _ added ihl ihr =>
      cases added
      rw [Plan.rows, Plan.rows, ihl, ihr]

theorem every {P : Operator → Prop} (h : Copied c n p m q) (hs : ∀ r, P (.scan r))
    (hP : p.Every P) : q.Every P := by
  induction h with
  | scan _ added =>
      cases added
      exact (every_leaf _).mpr (hs _)
  | unary _ _ added ih =>
      cases added
      rw [every_unary] at hP ⊢
      exact ⟨hP.1, ih hP.2⟩
  | product _ _ added ihl ihr =>
      cases added
      rw [every_binary] at hP ⊢
      exact ⟨hP.1, ihl hP.2.1, ihr hP.2.2⟩

theorem named (h : Copied c n p m q) : ∀ r ∈ p.scans, r.name ∈ c := by
  induction h with
  | scan found _ =>
      intro r hr
      rw [scans_leaf, Operator.relation?, Option.toList_some, List.mem_singleton] at hr
      exact hr ▸ Option.isSome_iff_exists.mpr ⟨_, found⟩
  | @unary _ _ op _ _ _ _ _ ho _ _ ih =>
      cases op with
      | select _ | project _ => simpa [Operator.relation?] using ih
      | scan _ | product | join _ => cases ho
  | product _ _ _ ihl ihr =>
      intro r hr
      rw [scans_binary, Operator.relation?, Option.toList_none, List.nil_append,
        List.mem_append] at hr
      exact hr.elim (ihl r) (ihr r)

theorem wellShaped (h : Copied c n p m q) : p.WellShaped := by
  induction h with
  | scan _ _ =>
      intro x hx
      rw [List.mem_singleton.mp hx]
      rfl
  | unary ho _ _ ih => exact wellShaped_unary.mpr ⟨ho, ih⟩
  | product _ _ _ ihl ihr => exact wellShaped_binary.mpr ⟨rfl, ihl, ihr⟩

theorem joinFree (h : Copied c n p m q) : p.JoinFree := by
  induction h with
  | scan _ _ => exact (every_leaf _).mpr rfl
  | @unary _ _ op _ _ _ _ _ ho _ _ ih =>
      refine (every_unary _).mpr ⟨?_, ih⟩
      cases op with
      | select _ | project _ => rfl
      | scan _ | product | join _ => cases ho
  | product _ _ _ ihl ihr => exact (every_binary _).mpr ⟨rfl, ihl, ihr⟩

/-- The copy of a canonical plan has no projection but the one at the root. -/
theorem rooted (h : Copied c n p m q) (hp : p.Canonical) : Rooted p.operator.columns? q := by
  have hbelow := hp.below
  cases h with
  | scan _ added =>
      cases added
      exact .bare ((every_leaf _).mpr rfl)
  | @unary _ _ op _ _ _ _ _ ho input added =>
      cases added
      have hf := input.every (fun _ => rfl) (hbelow _ (List.mem_singleton_self _))
      cases op with
      | select _ => exact .bare ((every_unary _).mpr ⟨rfl, hf⟩)
      | project _ => exact .under hf
      | scan _ | product | join _ => cases ho
  | product left right added =>
      cases added
      have hl := left.every (fun _ => rfl) (hbelow _ (by simp))
      have hr := right.every (fun _ => rfl) (hbelow _ (by simp))
      exact .bare ((every_binary _).mpr ⟨rfl, hl, hr⟩)

theorem distinctColumns (h : Copied c n p m q)
    (hd : p.DistinctSources c) : q.DistinctColumns := by
  rw [DistinctColumns, leafColumns, h.scans]
  exact hd

end Copied

namespace Plan

/-- What an operator looks up is in sight in every input. -/
def InSight (p : Plan) : Prop :=
  ∀ q ∈ p.preorder, ∀ r ∈ q.inputs, q.operator.used ⊆ r.columns

/-- No column compared is without values in a relation of the catalogue that is scanned. -/
def Divisible (c : Catalogue) (p : Plan) : Prop :=
  ∀ predicate ∈ p.predicates, ∀ r ∈ p.sources c, ∀ a ∈ r.statistics.attributes,
    a.column ∈ predicate.columns → a.distinct ≠ 0

/-- What a plan must be to be copied, joins apart. -/
structure Legal (c : Catalogue) (p : Plan) : Prop where
  wellShaped : p.WellShaped
  named : ∀ r ∈ p.scans, r.name ∈ c
  inSight : (p.relinked c).InSight
  divisible : p.Divisible c

section Conditions

variable {c : Catalogue} {q l r : Plan} {i : NodeId} {e : Option Statistics} {op : Operator}

theorem inSight_unary : (Plan.mk op [q] i e).InSight ↔ op.used ⊆ q.columns ∧ q.InSight := by
  rw [InSight, preorder_unary, List.forall_mem_cons]
  simp only [List.mem_singleton, forall_eq]
  rfl

theorem inSight_product :
    (Plan.mk .product [l, r] i e).InSight ↔ l.InSight ∧ r.InSight := by
  rw [InSight, preorder_binary, List.forall_mem_cons, List.forall_mem_append]
  exact and_iff_right fun _ _ => List.nil_subset _

theorem Legal.unary (h : (Plan.mk op [q] i e).Legal c) (ho : op.arity = 1) : q.Legal c where
  wellShaped := (wellShaped_unary.mp h.wellShaped).2
  named r hr := h.named r (by simp [hr])
  inSight := by
    have hs := h.inSight
    rw [relinked_unary ho, inSight_unary] at hs
    exact hs.2
  divisible predicate hm r hr := by
    apply h.divisible predicate (by simp [hm]) r
    rwa [sources_unary ho]

theorem Legal.product (h : (Plan.mk .product [l, r] i e).Legal c) : l.Legal c ∧ r.Legal c := by
  have hw := wellShaped_binary.mp h.wellShaped
  have hs := h.inSight
  rw [relinked_product, inSight_product] at hs
  have hn := h.named
  rw [scans_binary, Operator.relation?, Option.toList_none, List.nil_append,
    List.forall_mem_append] at hn
  have hv := h.divisible
  rw [Divisible, predicates_binary, sources_product] at hv
  refine ⟨⟨hw.2.1, hn.1, hs.1, fun p hm b hb => hv p ?_ b ?_⟩,
    ⟨hw.2.2, hn.2, hs.2, fun p hm b hb => hv p ?_ b ?_⟩⟩
  all_goals simp [hm, hb]

end Conditions

end Plan

theorem Copied.inSight {c : Catalogue} {n m : Nat} {p q : Plan} (h : Copied c n p m q) :
    (p.relinked c).InSight := by
  induction h with
  | scan found _ =>
      rw [relinked_scan found]
      intro x hx y hy
      rw [List.mem_singleton.mp hx] at hy
      cases hy
  | @unary _ _ op _ _ _ _ _ ho input added ih =>
      rw [relinked_unary ho, inSight_unary]
      refine ⟨?_, ih⟩
      obtain ⟨s, hs⟩ := input.known
      rw [← input.columns]
      cases op with
      | select predicate =>
          obtain ⟨_, he, _⟩ := added.select hs
          exact hs.covered_of_select he
      | project cs =>
          obtain ⟨_, he, _⟩ := added.project hs
          exact fun a ha => hs.mem_iff.mp ((Statistics.project_eq_ok.mp he).1 a ha)
      | scan _ | product | join _ => cases ho
  | product _ _ _ ihl ihr =>
      rw [relinked_product, inSight_product]
      exact ⟨ihl, ihr⟩

theorem usable_of_divisible {s : Statistics} {c : Column} (hc : c ∈ s)
    (h : ∀ a ∈ s.attributes, a.column = c → a.distinct ≠ 0) : s.Usable c := by
  obtain ⟨a, ha⟩ := Option.isSome_iff_exists.mp ((Statistics.isSome_attribute? s c).mpr hc)
  exact ⟨a, ha, h a (List.mem_of_find?_eq_some ha) (Statistics.column_of_attribute? ha)⟩

theorem Copied.divisible {c : Catalogue} {n m : Nat} {p q : Plan} (h : Copied c n p m q)
    (hd : q.DistinctColumns) : p.Divisible c := by
  intro predicate hm r hr a ha hc hz
  rw [← h.predicates] at hm
  rw [← h.scans] at hr
  obtain ⟨s, hq⟩ := h.known
  refine hq.sound hd predicate hm a.column hc ⟨r, hr, List.mem_map_of_mem ha, fun hu => ?_⟩
  obtain ⟨b, hb, hbz⟩ := hu
  have hnodup : (r.statistics.attributes.map Attribute.column).Nodup :=
    (List.nodup_flatMap.mp hd).1 r hr
  have hab : b = a := List.inj_on_of_nodup_map hnodup (List.mem_of_find?_eq_some hb) ha
    (Statistics.column_of_attribute? hb)
  exact hbz (hab ▸ hz)

theorem Copied.usable {c : Catalogue} {n m : Nat} {p q : Plan} {s : Statistics}
    {predicate : Predicate} (h : Copied c n p m q) (hq : q.Estimated s)
    (hd : p.DistinctSources c)
    (hs : predicate.columns ⊆ (p.relinked c).columns)
    (hv : ∀ r ∈ p.sources c, ∀ a ∈ r.statistics.attributes, a.column ∈ predicate.columns →
      a.distinct ≠ 0) :
    ∀ a ∈ predicate.columns, s.Usable a := by
  intro a ha
  refine (hq.usable_iff (h.distinctColumns hd)).mpr ⟨h.columns ▸ hs ha, fun hb => ?_⟩
  obtain ⟨r, hr, har, hn⟩ := hb
  rw [h.scans] at hr
  exact hn (usable_of_divisible har fun b hb heq => hv r hr b hb (heq ▸ ha))

/-- A node above one input can be made where the input could be copied. -/
theorem Copied.added_unary {c : Catalogue} {n m : Nat} {op : Operator} {q q' : Plan} {i : NodeId}
    {e : Option Statistics} (h : Copied c n q m q') (ho : op.arity = 1)
    (hp : (Plan.mk op [q] i e).Legal c)
    (hd : q.DistinctSources c) :
    ∃ p, Added m op [q'] p := by
  obtain ⟨s, hq⟩ := h.known
  have hs := hp.inSight
  rw [relinked_unary ho, inSight_unary] at hs
  cases op with
  | select predicate =>
      refine added_select m hq (h.usable hq hd hs.1 fun r hr => ?_)
      refine hp.divisible predicate (by simp [Operator.predicate?]) r ?_
      rwa [sources_unary ho]
  | project cs =>
      refine added_project m hq fun a ha => ?_
      rw [hq.mem_iff, h.columns]
      exact hs.1 ha
  | scan _ | product | join _ => cases ho

theorem Copied.exists_product {c : Catalogue} {n m k : Nat} {l r l' r' : Plan} {i : NodeId}
    {e : Option Statistics} (left : Copied c n l m l') (right : Copied c m r k r') :
    ∃ p, Copied c n ⟨.product, [l, r], i, e⟩ (k + 1) p := by
  obtain ⟨_, hl⟩ := left.known
  obtain ⟨_, hr⟩ := right.known
  obtain ⟨p, added⟩ := added_product k hl hr
  exact ⟨p, .product left right added⟩

theorem Copied.exists_select {c : Catalogue} {n m : Nat} {q q' : Plan} {i : NodeId}
    {e : Option Statistics} (predicate : Predicate) (h : Copied c n q m q')
    (hd : q.DistinctSources c) (hs : predicate.columns ⊆ (q.relinked c).columns)
    (hv : ∀ r ∈ q.sources c, ∀ a ∈ r.statistics.attributes, a.column ∈ predicate.columns →
      a.distinct ≠ 0) : ∃ p, Copied c n ⟨.select predicate, [q], i, e⟩ (m + 1) p := by
  obtain ⟨_, hq⟩ := h.known
  obtain ⟨p, added⟩ := added_select m hq (h.usable hq hd hs hv)
  exact ⟨p, .unary rfl h added⟩

theorem exists_copied {c : Catalogue} {p : Plan} (hp : p.Legal c) (hj : p.JoinFree)
    (hd : p.DistinctSources c) (n : Nat) : ∃ m q, Copied c n p m q := by
  induction hsize : p.size using Nat.strong_induction_on generalizing p n with
  | _ k ih =>
      subst hsize
      obtain ⟨op, ps, i, e⟩ := p
      have ha : ps.length = op.arity := hp.wellShaped _ (mem_preorder_self _)
      cases op with
      | scan r =>
          obtain rfl := List.length_eq_zero_iff.mp ha
          obtain ⟨b, hb⟩ := Option.isSome_iff_exists.mp (hp.named r (by simp [Operator.relation?]))
          exact ⟨_, _, .scan hb (.mk rfl)⟩
      | select _ | project _ =>
          obtain ⟨q, rfl⟩ := List.length_eq_one_iff.mp ha
          rw [DistinctSources, sources_unary rfl] at hd
          obtain ⟨m, q', h⟩ := ih _ size_lt_unary (hp.unary rfl) ((every_unary _).mp hj).2 hd n rfl
          obtain ⟨p, added⟩ := h.added_unary rfl hp hd
          exact ⟨_, p, .unary rfl h added⟩
      | product =>
          obtain ⟨l, r, rfl⟩ := List.length_eq_two.mp ha
          rw [DistinctSources, sources_product, List.flatMap_append] at hd
          have hjlr := ((every_binary _).mp hj).2
          obtain ⟨m, l', hl⟩ := ih _ size_lt_binary.1 hp.product.1 hjlr.1 hd.of_append_left n rfl
          obtain ⟨k, r', hr⟩ := ih _ size_lt_binary.2 hp.product.2 hjlr.2 hd.of_append_right m rfl
          exact ⟨_, hl.exists_product hr⟩
      | join predicate => cases hj _ (mem_preorder_self _)

theorem succeeds_prepare {c : Catalogue} {p : Plan} (hp : p.Legal c) (hj : p.JoinFree)
    (hd : p.DistinctSources c) (x : Progress) : Succeeds (prepare c p) x := by
  obtain ⟨_, q, copied⟩ := exists_copied hp hj hd x.issued
  obtain ⟨t, h, _⟩ := returns_of_copied copied rfl
  exact ⟨q, t, h⟩

end QueryPlan
