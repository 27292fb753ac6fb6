import QueryPlan.Proofs.Failures
import QueryPlan.Proofs.Optimised

/-!
The copy of a canonical plan compared with the plan estimated anew. Both look at operators
and names of relations alone, and both go through the plan in postorder; so they give the
same plan up to numbers, or fail for the same cause. The numbers of a copy are those of its
nodes' places.
-/

namespace QueryPlan

namespace Plan

mutual

def renumbered (n : Nat) : Plan → Plan
  | ⟨op, ps, _, s⟩ => ⟨op, allRenumbered n ps, .ofNat (n + totalSize ps + 1), s⟩

def allRenumbered (n : Nat) : List Plan → List Plan
  | [] => []
  | p :: ps => renumbered n p :: allRenumbered (n + p.size) ps

end

mutual

/-- All below the topmost node, left before right, and then that node. -/
def postorder : Plan → List Plan
  | ⟨op, ps, i, s⟩ => postorderAll ps ++ [⟨op, ps, i, s⟩]

def postorderAll : List Plan → List Plan
  | [] => []
  | p :: ps => postorder p ++ postorderAll ps

end

mutual

theorem unnumbered_renumbered (p : Plan) (n : Nat) :
    (p.renumbered n).unnumbered = p.unnumbered := by
  obtain ⟨op, ps, i, s⟩ := p
  simp only [renumbered, unnumbered, allUnnumbered_allRenumbered ps n]

theorem allUnnumbered_allRenumbered (ps : List Plan) (n : Nat) :
    allUnnumbered (allRenumbered n ps) = allUnnumbered ps := by
  cases ps with
  | nil => rfl
  | cons p ps =>
      simp only [allRenumbered, allUnnumbered, unnumbered_renumbered p n,
        allUnnumbered_allRenumbered ps (n + p.size)]

end

mutual

theorem ids_postorder_renumbered (p : Plan) (n : Nat) :
    (p.renumbered n).postorder.map id = (List.range' (n + 1) p.size).map UInt32.ofNat := by
  obtain ⟨op, ps, i, s⟩ := p
  rw [renumbered, postorder, List.map_append, ids_postorderAll_renumbered ps n, size,
    Nat.add_comm 1, List.range'_concat, List.map_append, Nat.one_mul, Nat.add_right_comm]
  rfl

theorem ids_postorderAll_renumbered (ps : List Plan) (n : Nat) :
    (postorderAll (allRenumbered n ps)).map id =
      (List.range' (n + 1) (totalSize ps)).map UInt32.ofNat := by
  cases ps with
  | nil => rfl
  | cons p ps =>
      rw [allRenumbered, postorderAll, List.map_append, ids_postorder_renumbered p n,
        ids_postorderAll_renumbered ps (n + p.size), totalSize, ← List.range'_append,
        List.map_append, Nat.one_mul, Nat.add_right_comm]

end

mutual

theorem size_renumbered (p : Plan) (n : Nat) : (p.renumbered n).size = p.size := by
  obtain ⟨op, ps, i, s⟩ := p
  rw [renumbered, size, size, totalSize_allRenumbered ps n]

theorem totalSize_allRenumbered (ps : List Plan) (n : Nat) :
    totalSize (allRenumbered n ps) = totalSize ps := by
  cases ps with
  | nil => rfl
  | cons p ps =>
      rw [allRenumbered, totalSize, totalSize, size_renumbered p n,
        totalSize_allRenumbered ps (n + p.size)]

end

theorem same_renumbered (p : Plan) (n : Nat) : (p.renumbered n).same p :=
  (same_iff _ p).mpr (unnumbered_renumbered p n)

theorem output_renumbered {p : Plan} {s : Statistics} (h : p.output = .ok s) (n : Nat) :
    (p.renumbered n).output = .ok s := by
  obtain ⟨op, ps, i, e⟩ := p
  cases e with
  | none => cases h
  | some t => exact h

/-- Numbers are of no account to an estimate. -/
theorem estimated_renumbered {op : Operator} {ps : List Plan} (hps : ∀ p ∈ ps, ∃ s, p.Estimated s)
    (n : Nat) (i j : NodeId) (d e : Option Statistics) :
    (Plan.mk op (allRenumbered n ps) j d).estimated = (Plan.mk op ps i e).estimated := by
  have houtputs : (allRenumbered n ps).mapM output = ps.mapM output := by
    induction ps generalizing n with
    | nil => rfl
    | cons p ps ih =>
        rw [List.forall_mem_cons] at hps
        obtain ⟨s, hp⟩ := hps.1
        rw [allRenumbered, List.mapM_cons, List.mapM_cons, ih hps.2, hp.output_eq,
          output_renumbered hp.output_eq]
  rw [estimated, estimated, houtputs]

/-- What every node of a plan must be for the plan to be copied, apart from its estimates. -/
def Copyable (c : Catalogue) (p : Plan) : Prop :=
  ∀ q ∈ p.preorder, q.inputs.length = q.operator.arity ∧ q.operator.isJoin = false ∧
    ∀ r ∈ q.operator.relation?, r.name ∈ c

theorem Copyable.input {c : Catalogue} {p q : Plan} (h : p.Copyable c) (hq : q ∈ p.inputs) :
    q.Copyable c :=
  fun _ hr => h _ (mem_preorder_of_input hq hr)

theorem copyable_of_named {c : Catalogue} {p : Plan} (hw : p.WellShaped) (hj : p.JoinFree)
    (hn : ∀ r ∈ p.scans, r.name ∈ c) : p.Copyable c :=
  fun q hq => ⟨hw q hq, hj q hq, fun r hr => hn r (List.mem_filterMap.mpr ⟨q, hq, hr⟩)⟩

end Plan

open Planner Plan

variable {c : Catalogue}

/-- A node that is neither a scan nor a join is made again over the copies of its inputs. -/
theorem prepare_inner {op : Operator} {ps : List Plan} {i : NodeId} {e : Option Statistics}
    (ha : ps.length = op.arity) (hs : op.relation? = none) (hj : op.isJoin = false) :
    prepare c ⟨op, ps, i, e⟩ = prepareAll c ps >>= addNode op := by
  have hn : ¬ ps.length ≠ op.arity := not_not.mpr ha
  cases op with
  | select _ | project _ | product =>
      simp only [prepare]
      rw [if_neg hn]
  | scan _ => cases hs
  | join _ => cases hj

theorem relinked_inner {op : Operator} {ps : List Plan} {i : NodeId} {e : Option Statistics}
    (hs : op.relation? = none) :
    (Plan.mk op ps i e).relinked c = ⟨op, relinkedAll c ps, i, e⟩ := by
  cases op with
  | select _ | project _ | product | join _ => rfl
  | scan _ => cases hs

/-- What estimating anew gives, the computation gives with numbers of its own. -/
def Renumbers (m : Planner Plan) (x : Progress) : Except Error Plan → Prop
  | .ok q => Returns m x (q.renumbered x.issued) ⟨x.issued + q.size, x.events⟩
  | .error e => Fails m x e

def AllRenumber (m : Planner (List Plan)) (x : Progress) : Except Error (List Plan) → Prop
  | .ok qs => Returns m x (allRenumbered x.issued qs) ⟨x.issued + totalSize qs, x.events⟩
  | .error e => Fails m x e

/-- A node made over renumbered inputs is the node estimated over the inputs, renumbered. -/
theorem renumbers_addNode {m : Planner (List Plan)} {x : Progress} {op : Operator}
    {qs : List Plan} (h : AllRenumber m x (.ok qs)) (hqs : ∀ q ∈ qs, ∃ s, q.Estimated s)
    (i : NodeId) :
    Renumbers (m >>= addNode op) x
      ((Plan.mk op qs i none).estimated >>= fun s => pure ⟨op, qs, i, some s⟩) := by
  have hsame := @estimated_renumbered op qs hqs x.issued i
    (.ofNat (x.issued + totalSize qs + 1)) none none
  cases he : (Plan.mk op qs i none).estimated with
  | error e => exact Returns.bind_fails h (fails_addNode.mpr (hsame.trans he))
  | ok s =>
      have added : Added (x.issued + totalSize qs) op (allRenumbered x.issued qs)
          ((Plan.mk op qs i (some s)).renumbered x.issued) := .mk (hsame.trans he)
      have hsize : (Plan.mk op qs i (some s)).size = totalSize qs + 1 := Nat.add_comm ..
      refine returns_bind.mpr ⟨_, _, h, returns_addNode.mpr ⟨added, ?_⟩⟩
      rw [hsize, Nat.add_assoc]

mutual

theorem renumbers_prepare (p : Plan) (hp : p.Copyable c) (x : Progress) :
    Renumbers (prepare c p) x (p.relinked c).reestimate := by
  obtain ⟨op, ps, i, e⟩ := p
  obtain ⟨ha, hj, hn⟩ := hp _ (mem_preorder_self _)
  have inner (hs : op.relation? = none) :
      Renumbers (prepare c ⟨op, ps, i, e⟩) x ((Plan.mk op ps i e).relinked c).reestimate := by
    have hall := renumbers_prepareAll ps (fun q hq => hp.input hq) x
    rw [prepare_inner ha hs hj, relinked_inner hs, reestimate]
    cases hqs : reestimateAll (relinkedAll c ps) with
    | error err =>
        rw [hqs] at hall
        exact Fails.bind hall
    | ok qs =>
        rw [hqs] at hall
        exact renumbers_addNode hall (estimated_of_reestimateAll _ hqs) i
  cases op with
  | scan r =>
      obtain rfl := List.length_eq_zero_iff.mp ha
      obtain ⟨b, hb⟩ := Option.isSome_iff_exists.mp (hn r rfl)
      rw [prepare_scan, resolve_eq_ok.mpr hb, relinked_scan hb]
      have hall : AllRenumber (pure []) x (.ok []) := returns_pure.mpr ⟨rfl, rfl⟩
      exact renumbers_addNode hall (List.forall_mem_nil _) i
  | select _ | project _ | product => exact inner rfl
  | join _ => cases hj

theorem renumbers_prepareAll (ps : List Plan) (hps : ∀ p ∈ ps, p.Copyable c) (x : Progress) :
    AllRenumber (prepareAll c ps) x (reestimateAll (relinkedAll c ps)) := by
  cases ps with
  | nil => exact returns_pure.mpr ⟨rfl, rfl⟩
  | cons p ps =>
      rw [List.forall_mem_cons] at hps
      have hone := renumbers_prepare p hps.1 x
      rw [prepareAll, relinkedAll, reestimateAll]
      cases hq : (p.relinked c).reestimate with
      | error err =>
          rw [hq] at hone
          exact Fails.bind hone
      | ok q =>
          rw [hq] at hone
          have hall := renumbers_prepareAll ps hps.2 ⟨x.issued + q.size, x.events⟩
          cases hqs : reestimateAll (relinkedAll c ps) with
          | error err =>
              rw [hqs] at hall
              exact Returns.bind_fails hone (Fails.bind hall)
          | ok qs =>
              rw [hqs] at hall
              refine returns_bind.mpr ⟨_, _, hone, returns_bind.mpr ⟨_, _, hall, ?_⟩⟩
              exact returns_pure.mpr ⟨rfl, by rw [totalSize, Nat.add_assoc]⟩

end

/-- The operator, with nothing of a scan but the name of its relation. -/
def Operator.nominal : Operator → Operator
  | scan r => scan ⟨r.name, ⟨0, []⟩⟩
  | select predicate => select predicate
  | project cs => project cs
  | product => product
  | join predicate => join predicate

namespace Plan

mutual

/-- The tree of operators and names of relations, without numbers and estimates. -/
def nominal : Plan → Plan
  | ⟨op, ps, _, _⟩ => ⟨op.nominal, allNominal ps, 0, none⟩

def allNominal : List Plan → List Plan
  | [] => []
  | p :: ps => nominal p :: allNominal ps

end

theorem length_allNominal (ps : List Plan) : (allNominal ps).length = ps.length := by
  induction ps with
  | nil => rfl
  | cons p ps ih => rw [allNominal, List.length_cons, ih, List.length_cons]

mutual

theorem preorder_nominal (p : Plan) : p.nominal.preorder = p.preorder.map nominal := by
  obtain ⟨op, ps, i, e⟩ := p
  rw [preorder_eq, preorder_eq, List.map_cons]
  exact congrArg (_ :: ·) (preorderAll_nominal ps)

theorem preorderAll_nominal (ps : List Plan) :
    preorderAll (allNominal ps) = (preorderAll ps).map nominal := by
  cases ps with
  | nil => rfl
  | cons p ps =>
      rw [allNominal, preorderAll, preorderAll, List.map_append, preorder_nominal p,
        preorderAll_nominal ps]

end

theorem wellShaped_nominal {p : Plan} : p.nominal.WellShaped ↔ p.WellShaped := by
  rw [WellShaped, preorder_nominal, List.forall_mem_map]
  refine forall₂_congr fun q _ => ?_
  obtain ⟨op, ps, i, e⟩ := q
  have ha : op.nominal.arity = op.arity := by cases op <;> rfl
  rw [nominal, length_allNominal, ha]

end Plan

mutual

theorem prepare_nominal (p : Plan) (hp : p.WellShaped) : prepare c p.nominal = prepare c p := by
  obtain ⟨op, ps, i, e⟩ := p
  have ha : ps.length = op.arity := hp _ (mem_preorder_self _)
  have hall := prepareAll_nominal ps fun q hq => hp.input hq
  cases op with
  | scan r =>
      obtain rfl := List.length_eq_zero_iff.mp ha
      rfl
  | select _ | project _ | product | join _ =>
      simp only [nominal, Operator.nominal, prepare, length_allNominal, hall]

theorem prepareAll_nominal (ps : List Plan) (hps : ∀ p ∈ ps, p.WellShaped) :
    prepareAll c (allNominal ps) = prepareAll c ps := by
  cases ps with
  | nil => rfl
  | cons p ps =>
      rw [List.forall_mem_cons] at hps
      rw [allNominal, prepareAll, prepareAll, prepare_nominal p hps.1, prepareAll_nominal ps hps.2]

end

/-- Plans of one tree of operators and names of relations have the same copy. -/
theorem prepare_congr {p p' : Plan} (hp : p.WellShaped) (h : p'.nominal = p.nominal) :
    prepare c p' = prepare c p := by
  have hp' : p'.WellShaped := wellShaped_nominal.mp (h ▸ wellShaped_nominal.mpr hp)
  rw [← prepare_nominal p' hp', h, prepare_nominal p hp]

theorem optimise_nil (c : Catalogue) (options : Options) (p : Plan) :
    optimise c [] options p = prepare c p := by
  simp only [optimise, List.foldlM_nil, bind_pure]

/-- A plan without joins, whose relations are known and whose operators have their inputs, is
copied into what estimating it anew over the catalogue's relations makes of it, numbered in
postorder, or fails for the same cause. Whatever the rules are, they start from that copy, so
numbers, estimates and statistics of the plan they are given make no difference. -/
theorem optimise_reestimates {p : Plan} {options : Options} (hp : p.WellShaped) (hj : p.JoinFree)
    (hn : ∀ r ∈ p.scans, r.name ∈ c) :
    (∀ q, (p.relinked c).reestimate = .ok q →
      ∃ q' y, Returns (optimise c [] options p) .start q' y ∧ q'.same q ∧
        q'.postorder.map Plan.id = (List.range' 1 q'.size).map UInt32.ofNat) ∧
      (∀ e, (p.relinked c).reestimate = .error e → Fails (optimise c [] options p) .start e) ∧
      ∀ p', p'.nominal = p.nominal →
        ∀ rules options, optimise c rules options p' = optimise c rules options p := by
  have hcopy := renumbers_prepare p (copyable_of_named hp hj hn) .start
  rw [← optimise_nil c options] at hcopy
  refine ⟨fun q hq => ?_, fun e he => ?_, fun p' h rules options => ?_⟩
  · rw [hq] at hcopy
    exact ⟨_, _, hcopy, same_renumbered q 0,
      (size_renumbered q 0).symm ▸ ids_postorder_renumbered q 0⟩
  · rw [he] at hcopy
    exact hcopy
  · rw [optimise, optimise, prepare_congr hp h]

theorem optimise_reestimates_sample :
    ∃ q q' y, (sample.relinked sampleCatalogue).reestimate = .ok q ∧
      Returns (optimise sampleCatalogue [] .standard sample) .start q' y ∧ q'.same q ∧
      q'.postorder.map Plan.id = (List.range' 1 q'.size).map UInt32.ofNat ∧
      ∀ rules options, optimise sampleCatalogue rules options (sample.relinked sampleCatalogue) =
        optimise sampleCatalogue rules options sample := by
  have h := @optimise_reestimates sampleCatalogue sample .standard (by decide)
    canonical_sample.joinFree (by decide)
  obtain ⟨q, hq⟩ : ∃ q, (sample.relinked sampleCatalogue).reestimate = .ok q := ⟨_, rfl⟩
  obtain ⟨q', y, hq'⟩ := h.1 q hq
  exact ⟨q, q', y, hq, hq'.1, hq'.2.1, hq'.2.2, h.2.2 _ rfl⟩

end QueryPlan
