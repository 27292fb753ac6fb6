import QueryPlan.Proofs.PushSelects.Framework

/-!
The lowest place of a selection. Pushed down, a comparison with a constant stands over
the scan that has its column. An equation stands over a product or join that has both
columns where neither input does; where there is none, one relation has them both, and
the equation has not moved.
-/

namespace QueryPlan.Plan

def base : Plan → Plan
  | ⟨.select _, [q], _, _⟩ => base q
  | p => p

def Joined (p : Plan) (predicate : Predicate) : Prop :=
  ∃ x ∈ p.preorder, x.operator.arity = 2 ∧ predicate.columns ⊆ x.columns

instance (p : Plan) (predicate : Predicate) : Decidable (p.Joined predicate) :=
  inferInstanceAs (Decidable (∃ x ∈ p.preorder, _))

/-- A selection above this plan could not be put any lower. -/
def Lowest (p : Plan) : Predicate → Prop
  | .equalsValue c _ => ∃ r, p.base.operator = .scan r ∧ c ∈ r.statistics
  | .equalsColumn a b =>
      (p.base.operator.arity = 2 ∧ a ∈ p.base.columns ∧ b ∈ p.base.columns ∧
        ∀ q ∈ p.base.inputs, ¬ q.Joined (.equalsColumn a b)) ∨
      (¬ p.Joined (.equalsColumn a b) ∧ ∃ r ∈ p.scans, a ∈ r.statistics ∧ b ∈ r.statistics)

def unjoined (predicate : Predicate) (p : Plan) : Bool :=
  !predicate.isEqualsValue && !decide (p.Joined predicate)

variable {p : Plan} {s : Statistics}

theorem base_mem_preorder : p.base ∈ p.preorder := by
  fun_induction base p with
  | case1 _ _ _ _ ih =>
      rw [preorder_unary]
      exact List.mem_cons_of_mem _ ih
  | case2 p _ => exact mem_preorder_self p

theorem base_binary {op : Operator} {l r : Plan} {i : NodeId} {e : Option Statistics}
    (ho : op.arity = 2) : (Plan.mk op [l, r] i e).base = ⟨op, [l, r], i, e⟩ := by
  obtain rfl | ⟨_, rfl⟩ := product_or_join ho <;> rfl

/-- In an estimated plan, each selection has an estimated input with the columns it compares. -/
theorem EachSelection.imp {P Q : NodeId → Predicate → Plan → Prop} (h : p.EachSelection P)
    (hp : p.Estimated s)
    (hPQ : ∀ i predicate q t, q.Estimated t → predicate.columns ⊆ q.columns →
      P i predicate q → Q i predicate q) : p.EachSelection Q := by
  induction hp with
  | scan r i => exact eachSelection_scan
  | select i hq he ih =>
      have hx := eachSelection_select.mp h
      exact eachSelection_select.mpr ⟨hPQ _ _ _ _ hq (hq.covered_of_select he) hx.1, ih hx.2⟩
  | project i _ _ ih => exact eachSelection_project.mpr (ih (eachSelection_project.mp h))
  | product i _ _ ihl ihr | join i _ _ _ ihl ihr =>
      have hx := eachSelection_binary.mp h
      exact eachSelection_binary.mpr ⟨ihl hx.1, ihr hx.2⟩

end QueryPlan.Plan

namespace QueryPlan.PushSelects

open Planner Plan

variable {n m : Nat} {p q l r x : Plan} {f g : Floating} {s : Statistics} {predicate : Predicate}
  {predicates : List Predicate}

theorem absorbs_equalsValue {c : Column} {v : String} (hp : p.Estimated s) (hc : c ∈ p.columns) :
    absorbs p (.equalsValue c v) := by
  obtain ⟨b, hb, hcb⟩ := List.mem_flatMap.mp (hp.columns_subset hc)
  obtain ⟨x, hx, ho⟩ := List.mem_filterMap.mp hb
  refine List.any_eq_true.mpr ⟨x, hx, ?_⟩
  obtain ⟨op, ps, i, e⟩ := x
  cases op with
  | scan b' =>
      obtain rfl : b' = b := Option.some.inj ho
      exact decide_eq_true hcb
  | select _ | project _ | product | join _ => cases ho

theorem takes_equalsColumn {a b : Column} :
    takes x (.equalsColumn a b) ↔
      x.operator.arity = 2 ∧ (Predicate.equalsColumn a b).columns ⊆ x.columns := by
  obtain ⟨op, ps, i, e⟩ := x
  cases op with
  | scan _ => simp [takes, scanTakes, Predicate.isEqualsValue, Operator.arity]
  | select _ | project _ => simp [takes, Operator.arity]
  | product | join _ => exact decide_eq_true_iff.trans (and_iff_right rfl).symm

theorem absorbs_equalsColumn {a b : Column} :
    absorbs p (.equalsColumn a b) ↔ p.Joined (.equalsColumn a b) := by
  simp only [absorbs, List.any_eq_true, takes_equalsColumn, Plan.Joined]

/-- Columns that no product or join has both come from one relation. -/
theorem exists_scan_of_free {a b : Column} (hp : p.Estimated s) (ha : a ∈ p.columns)
    (hb : b ∈ p.columns) (hn : ¬ absorbs p (.equalsColumn a b)) :
    ∃ r ∈ p.scans, a ∈ r.statistics ∧ b ∈ r.statistics := by
  have pair {op : Operator} {l r : Plan} {i : NodeId} {e : Option Statistics}
      (ho : op.arity = 2) (ha : a ∈ (Plan.mk op [l, r] i e).columns)
      (hb : b ∈ (Plan.mk op [l, r] i e).columns) :
      absorbs ⟨op, [l, r], i, e⟩ (.equalsColumn a b) := by
    refine absorbs_equalsColumn.mpr ⟨_, mem_preorder_self _, ho, ?_⟩
    simp [Predicate.columns, ha, hb]
  induction hp with
  | scan r i => exact ⟨r, by simp [Operator.relation?], ha, hb⟩
  | select i _ _ ih =>
      rw [columns] at ha hb
      rw [absorbs_unary rfl] at hn
      simpa [Operator.relation?] using ih ha hb hn
  | project i _ _ ih =>
      rw [columns] at ha hb
      rw [absorbs_unary rfl] at hn
      simpa [Operator.relation?] using
        ih (List.mem_of_mem_filter ha) (List.mem_of_mem_filter hb) hn
  | product i _ _ _ _ | join i _ _ _ _ _ => exact absurd (pair rfl ha hb) hn

/-- If any node below takes the predicate, that is the first one, and no other. -/
def Settled (predicate : Predicate) (p : Plan) : Prop :=
  absorbs p predicate → takes p.base predicate ∧ ∀ q ∈ p.base.inputs, ¬ absorbs q predicate

theorem settled_stacked (h : Stacked n p predicates m q)
    (hp : p.EachSelection fun _ => Settled)
    (hs : ∀ predicate ∈ predicates, Settled predicate p) : q.EachSelection fun _ => Settled := by
  induction h with
  | nil => exact hp
  | cons added _ ih =>
      cases added
      rw [List.forall_mem_cons] at hs
      refine ih (eachSelection_select.mpr ⟨hs.1, hp⟩) fun predicate hm => ?_
      rw [Settled, absorbs_unary rfl, base]
      exact hs.2 predicate hm

theorem Sunk.settled (h : Sunk p f q g) : q.EachSelection fun _ => Settled := by
  induction h with
  | scan stacked =>
      refine settled_stacked stacked eachSelection_scan fun predicate hm _ => ⟨?_, ?_⟩
      · exact (Floating.mem_taken.mp hm).2
      · exact List.forall_mem_nil _
  | kept _ own _ input ih =>
      refine eachSelection_select.mpr ⟨fun ha => ?_, ih⟩
      exact absurd (input.absorbs_eq ▸ ha) (input.free own)
  | landed _ _ _ _ ih => exact ih
  | project _ ih => exact eachSelection_project.mpr ih
  | @pair _ _ op l r l' r' _ _ _ u _ j _ e' f g h binary _ _ _ left _ right output stacked
      ihl ihr =>
      refine settled_stacked stacked (eachSelection_binary.mpr ⟨ihl, ihr⟩) fun predicate hm _ => ?_
      have hcols : u.columns = l'.columns ++ r'.columns := by
        rw [output, left.columns, right.columns]
      rw [covered_eq_takes (i := j) (e := e') binary hcols, Floating.mem_taken, right.rest,
        left.rest, Floating.mem_predicates_untaken, Floating.mem_predicates_untaken] at hm
      obtain ⟨⟨⟨_, hnl⟩, hnr⟩, ht⟩ := hm
      rw [base_binary binary]
      refine ⟨ht, fun q hq => ?_⟩
      simp only [List.mem_cons, List.not_mem_nil, or_false] at hq
      obtain rfl | rfl := hq
      · rwa [left.absorbs_eq]
      · rwa [right.absorbs_eq]

/-- A node that takes a comparison with a constant over inputs that do not is a scan of the
column. -/
theorem scan_of_takes {c : Column} {v : String} (hx : x.Estimated s)
    (ht : takes x (.equalsValue c v)) (hn : ∀ q ∈ x.inputs, ¬ absorbs q (.equalsValue c v)) :
    ∃ r, x.operator = .scan r ∧ c ∈ r.statistics := by
  have pair {l r : Plan} {t u : Statistics} (hl : l.Estimated t) (hr : r.Estimated u)
      (hc : c ∈ l.columns ++ r.columns) :
      absorbs l (.equalsValue c v) ∨ absorbs r (.equalsValue c v) :=
    (List.mem_append.mp hc).imp (absorbs_equalsValue hl) (absorbs_equalsValue hr)
  have hc : c ∈ x.columns := columns_subset_of_takes ht (by simp [Predicate.columns])
  cases hx with
  | scan r i => exact ⟨r, rfl, hc⟩
  | select _ _ _ | project _ _ _ => cases ht
  | product _ hl hr | join _ hl hr _ =>
      simp only [List.forall_mem_cons] at hn
      exact absurd (pair hl hr hc) (not_or.mpr ⟨hn.1, hn.2.1⟩)

theorem lowest_of_settled (hp : p.Estimated s) (hc : predicate.columns ⊆ p.columns)
    (h : Settled predicate p) : p.Lowest predicate := by
  cases predicate with
  | equalsValue c v =>
      obtain ⟨ht, hn⟩ := h (absorbs_equalsValue hp (hc (by simp [Predicate.columns])))
      obtain ⟨⟨_, hb⟩, _⟩ := hp.of_mem base_mem_preorder
      exact scan_of_takes hb ht hn
  | equalsColumn a b =>
      by_cases ha : absorbs p (.equalsColumn a b)
      · obtain ⟨ht, hn⟩ := h ha
        obtain ⟨ho, hcb⟩ := takes_equalsColumn.mp ht
        simp only [absorbs_equalsColumn] at hn
        exact .inl ⟨ho, hcb (by simp [Predicate.columns]), hcb (by simp [Predicate.columns]), hn⟩
      · have hs := exists_scan_of_free hp (hc (by simp [Predicate.columns]))
          (hc (by simp [Predicate.columns])) ha
        exact .inr ⟨fun hj => ha (absorbs_equalsColumn.mpr hj), hs⟩

theorem stays_eq_unjoined : stays (fun predicate => !predicate.isEqualsValue) = unjoined := by
  funext predicate p
  cases predicate with
  | equalsValue _ _ => rfl
  | equalsColumn a b =>
      rw [stays, unjoined, Bool.eq_iff_iff.mpr (absorbs_equalsColumn.trans decide_eq_true_iff.symm)]

/-- Pushing selections down puts each at the lowest place it could have, and leaves those equations
in place that no product or join below could have. -/
theorem run_lowest (hp : p.Consistent) (hi : p.DistinctIds) (hd : p.DistinctColumns)
    (x : Progress) :
    ∃ q y, Returns (run p) x q y ∧ q.Consistent ∧ q.selections.Perm p.selections ∧
      (q.EachSelection fun _ predicate input => input.Lowest predicate) ∧
      q.thinned unjoined = p.thinned unjoined := by
  obtain ⟨_, hp⟩ := hp.estimated
  obtain ⟨q, y, h⟩ := succeeds_run hp hd x
  have pushed := pushed_of_run h
  have sunk := pushed.sunk hp hi
  obtain ⟨_, hq⟩ := pushed.estimated hp
  refine ⟨q, y, h, hq.consistent, selections_of_run h hp hi, ?_, ?_⟩
  · exact sunk.settled.imp hq fun _ _ _ _ hx hc hs => lowest_of_settled hx hc hs
  · rw [← stays_eq_unjoined, sunk.thinned_eq]

theorem run_lowest_mixed :
    ∃ q y, Returns (run mixed) .start q y ∧ q.Consistent ∧ q.selections.Perm mixed.selections ∧
      (q.EachSelection fun _ predicate input => input.Lowest predicate) ∧
      q.thinned unjoined = mixed.thinned unjoined :=
  run_lowest consistent_mixed distinctIds_mixed (by decide) .start

end QueryPlan.PushSelects
