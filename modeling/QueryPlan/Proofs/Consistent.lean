import QueryPlan.Proofs.Estimated

/-!
Consistent plans are the plans estimated throughout: the estimates attached to
their nodes say nothing that estimating them anew would not.
-/

namespace QueryPlan.Plan

variable {p q : Plan} {s : Statistics}

theorem Estimated.estimated_eq (h : p.Estimated s) : p.estimated = .ok s := by
  cases h with
  | scan r i => rfl
  | select i hq he | project i hq he => exact (hq.estimated_unary _ _ _).trans he
  | product i hl hr => exact hl.estimated_binary hr _ _ _
  | join i hl hr he => exact (hl.estimated_binary hr _ _ _).trans he

theorem Estimated.consistent (h : p.Estimated s) : p.Consistent := by
  intro q hq
  obtain ⟨⟨t, ht⟩, _⟩ := h.of_mem hq
  exact ⟨t, ht.estimate_eq, ht.estimated_eq⟩

theorem size_le_totalSize {ps : List Plan} (h : q ∈ ps) : q.size ≤ totalSize ps := by
  induction ps with
  | nil => cases h
  | cons r rs ih =>
      rw [totalSize]
      obtain rfl | h := List.mem_cons.mp h
      · omega
      · have hr := ih h
        omega

/-- The outputs that inputs estimated throughout have are those they are estimated to have. -/
theorem forall₂_of_mapM_output {ps : List Plan} {ts : List Statistics}
    (hps : ∀ p ∈ ps, ∃ s, p.Estimated s) (h : ps.mapM output = .ok ts) :
    List.Forall₂ Estimated ps ts := by
  induction ps generalizing ts with
  | nil =>
      cases h
      exact .nil
  | cons p ps ih =>
      obtain ⟨s, hs⟩ := hps p List.mem_cons_self
      simp only [List.mapM_cons, bind_eq_ok, pure_eq_ok] at h
      obtain ⟨t, ht, us, hus, rfl⟩ := h
      obtain rfl := Except.ok.inj (hs.output_eq.symm.trans ht)
      exact .cons hs (ih (fun q hq => hps q (List.mem_cons_of_mem _ hq)) hus)

/-- An operator that estimates its output has the inputs it takes. -/
theorem estimated_of_inputs {op : Operator} {ps : List Plan} {ts : List Statistics} (i : NodeId)
    (hps : List.Forall₂ Estimated ps ts) (h : op.estimate ts = .ok s) :
    (Plan.mk op ps i (some s)).Estimated s := by
  unfold Operator.estimate at h
  split at h
  · cases hps
    cases h
    exact .scan _ i
  · obtain _ | ⟨hq, _ | _⟩ := hps
    exact .select i hq h
  · obtain _ | ⟨hq, _ | _⟩ := hps
    exact .project i hq h
  · obtain _ | ⟨hl, _ | ⟨hr, _ | _⟩⟩ := hps
    cases h
    exact .product i hl hr
  · obtain _ | ⟨hl, _ | ⟨hr, _ | _⟩⟩ := hps
    exact .join i hl hr h
  · cases h

theorem Consistent.estimated (h : p.Consistent) : ∃ s, p.Estimated s := by
  induction hn : p.size using Nat.strongRecOn generalizing p with
  | ind n ih =>
      obtain ⟨s, hs, he⟩ := h p (mem_preorder_self p)
      have hps : ∀ q ∈ p.inputs, ∃ t, q.Estimated t := by
        intro q hq
        have hl := size_le_totalSize hq
        rw [size_eq] at hn
        exact ih q.size (by omega) (h.input hq) rfl
      obtain ⟨op, ps, i, e⟩ := p
      obtain rfl : e = some s := hs
      obtain ⟨ts, hm, he⟩ := bind_eq_ok.mp he
      exact ⟨s, estimated_of_inputs i (forall₂_of_mapM_output hps hm) he⟩

theorem reestimate_eq_ok {op : Operator} {ps : List Plan} {i : NodeId} {e : Option Statistics} :
    (Plan.mk op ps i e).reestimate = .ok q ↔
      ∃ qs s, reestimateAll ps = .ok qs ∧ (Plan.mk op qs i none).estimated = .ok s ∧
        q = ⟨op, qs, i, some s⟩ := by
  simp only [reestimate, bind_eq_ok, pure_eq_ok, withEstimate, ← exists_and_left]

theorem reestimateAll_cons {ps qs : List Plan} :
    reestimateAll (p :: ps) = .ok qs ↔
      ∃ q rs, p.reestimate = .ok q ∧ reestimateAll ps = .ok rs ∧ qs = q :: rs := by
  simp only [reestimateAll, bind_eq_ok, pure_eq_ok, ← exists_and_left]

mutual

/-- Whatever a plan is estimated at, estimated anew it is estimated throughout. -/
theorem estimated_of_reestimate (p : Plan) {q : Plan} (h : p.reestimate = .ok q) :
    ∃ s, q.Estimated s := by
  obtain ⟨op, ps, i, e⟩ := p
  obtain ⟨qs, s, hqs, hs, rfl⟩ := reestimate_eq_ok.mp h
  obtain ⟨ts, hm, he⟩ := bind_eq_ok.mp hs
  have hall := estimated_of_reestimateAll ps hqs
  exact ⟨s, estimated_of_inputs i (forall₂_of_mapM_output hall hm) he⟩

theorem estimated_of_reestimateAll (ps : List Plan) {qs : List Plan}
    (h : reestimateAll ps = .ok qs) : ∀ q ∈ qs, ∃ s, q.Estimated s := by
  cases ps with
  | nil =>
      cases h
      exact List.forall_mem_nil _
  | cons p ps =>
      obtain ⟨q, rs, hq, hrs, rfl⟩ := reestimateAll_cons.mp h
      exact List.forall_mem_cons.mpr
        ⟨estimated_of_reestimate p hq, estimated_of_reestimateAll ps hrs⟩

end

mutual

/-- Estimating anew leaves the operators as they are. -/
theorem operators_of_reestimate (p : Plan) {q : Plan} (h : p.reestimate = .ok q) :
    q.preorder.map operator = p.preorder.map operator := by
  obtain ⟨op, ps, i, e⟩ := p
  obtain ⟨qs, s, hqs, _, rfl⟩ := reestimate_eq_ok.mp h
  simp only [preorder_eq, List.map_cons, operators_of_reestimateAll ps hqs]

theorem operators_of_reestimateAll (ps : List Plan) {qs : List Plan}
    (h : reestimateAll ps = .ok qs) :
    (preorderAll qs).map operator = (preorderAll ps).map operator := by
  cases ps with
  | nil =>
      cases h
      rfl
  | cons p ps =>
      obtain ⟨q, rs, hq, hrs, rfl⟩ := reestimateAll_cons.mp h
      simp only [preorderAll, List.map_append, operators_of_reestimate p hq,
        operators_of_reestimateAll ps hrs]

end

theorem scans_of_operators (h : q.preorder.map operator = p.preorder.map operator) :
    q.scans = p.scans := by
  have hs (p : Plan) : p.scans = (p.preorder.map operator).filterMap Operator.relation? := by
    rw [List.filterMap_map]
    rfl
  rw [hs, h, hs]

theorem every_of_operators {P : Operator → Prop}
    (h : q.preorder.map operator = p.preorder.map operator) : q.Every P ↔ p.Every P := by
  have hs (p : Plan) : p.Every P ↔ ∀ op ∈ p.preorder.map operator, P op := by
    rw [List.forall_mem_map]
    rfl
  rw [hs, h, hs]

theorem reestimate_of_inputs {op : Operator} {ps qs : List Plan} {i : NodeId}
    {e : Option Statistics} (hps : reestimateAll ps = .ok qs)
    (he : (Plan.mk op qs i none).estimated = .ok s) :
    (Plan.mk op ps i e).reestimate = .ok ⟨op, qs, i, some s⟩ := by
  rw [reestimate, hps]
  simp only [bind, Except.bind, he]
  rfl

theorem reestimateAll_one {p' : Plan} (h : p.reestimate = .ok p') :
    reestimateAll [p] = .ok [p'] := by
  rw [reestimateAll, h]
  rfl

theorem reestimateAll_two {p' q' : Plan} (hp : p.reestimate = .ok p')
    (hq : q.reestimate = .ok q') : reestimateAll [p, q] = .ok [p', q'] := by
  rw [reestimateAll, hp, reestimateAll_one hq]
  rfl

/-- Estimating a plan anew does not change what is estimated throughout. -/
theorem Estimated.reestimate_eq (h : p.Estimated s) : p.reestimate = .ok p := by
  induction h with
  | scan r i => rfl
  | select i hq he ih | project i hq he ih =>
      exact reestimate_of_inputs (reestimateAll_one ih) ((hq.estimated_unary _ _ _).trans he)
  | product i hl hr ihl ihr =>
      exact reestimate_of_inputs (reestimateAll_two ihl ihr) (hl.estimated_binary hr _ _ _)
  | join i hl hr he ihl ihr =>
      exact reestimate_of_inputs (reestimateAll_two ihl ihr)
        ((hl.estimated_binary hr _ _ _).trans he)

mutual

/-- The operators of the plan in their places. Numbers and estimates are left out. -/
def skeleton : Plan → Plan
  | ⟨op, ps, _, _⟩ => ⟨op, skeletons ps, 0, none⟩

def skeletons : List Plan → List Plan
  | [] => []
  | p :: ps => skeleton p :: skeletons ps

end

section Skeleton

variable {op : Operator} {l r : Plan} {i : NodeId} {e : Option Statistics}

theorem skeleton_leaf : (Plan.mk op [] i e).skeleton = ⟨op, [], 0, none⟩ :=
  rfl

theorem skeleton_unary : (Plan.mk op [q] i e).skeleton = ⟨op, [q.skeleton], 0, none⟩ :=
  rfl

theorem skeleton_binary :
    (Plan.mk op [l, r] i e).skeleton = ⟨op, [l.skeleton, r.skeleton], 0, none⟩ :=
  rfl

end Skeleton

theorem Estimated.unnumbered (h : p.Estimated s) : p.unnumbered.Estimated s := by
  induction h with
  | scan r i => exact .scan r 0
  | select i _ he ih => exact .select 0 ih he
  | project i _ he ih => exact .project 0 ih he
  | product i _ _ ihl ihr => exact .product 0 ihl ihr
  | join i _ _ he ihl ihr => exact .join 0 ihl ihr he

/-- Estimating the bare operators gives all estimates back. -/
theorem Estimated.reestimate_skeleton (h : p.Estimated s) :
    p.skeleton.reestimate = .ok p.unnumbered := by
  induction h with
  | scan r i => rfl
  | select i hq he ih | project i hq he ih =>
      exact reestimate_of_inputs (reestimateAll_one ih)
        ((hq.unnumbered.estimated_unary _ _ _).trans he)
  | product i hl hr ihl ihr =>
      exact reestimate_of_inputs (reestimateAll_two ihl ihr)
        (hl.unnumbered.estimated_binary hr.unnumbered _ _ _)
  | join i hl hr he ihl ihr =>
      exact reestimate_of_inputs (reestimateAll_two ihl ihr)
        ((hl.unnumbered.estimated_binary hr.unnumbered _ _ _).trans he)

/-- Estimated plans with the same operators in the same places differ in numbers alone. -/
theorem Estimated.unnumbered_eq {t : Statistics} (hp : p.Estimated s) (hq : q.Estimated t)
    (h : q.skeleton = p.skeleton) : q.unnumbered = p.unnumbered :=
  Except.ok.inj (hq.reestimate_skeleton.symm.trans (h ▸ hp.reestimate_skeleton))

end QueryPlan.Plan
