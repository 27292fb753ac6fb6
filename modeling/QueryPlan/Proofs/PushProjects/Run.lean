import QueryPlan.Proofs.PushProjects.Pruned

/-!
The rule itself. Pruning never fails, as no column is hidden that a predicate
above it compares, and the rule touches no plan without a projection at its root.
-/

namespace QueryPlan.PushProjects

open Planner Plan

theorem succeeds_keepNeeded {needed : List Column} {p : Plan} {s : Statistics}
    (hp : p.Estimated s) (x : Progress) : Succeeds (keepNeeded needed p) x := by
  apply (returns_of_ok hp.output_eq x).bind
  dsimp only
  split
  · exact succeeds_pure
  · have hc : ∀ c ∈ s.columns.filter (· ∈ needed), c ∈ s := fun c hc => (List.mem_filter.mp hc).1
    apply (returns_of_report _ x).bind
    obtain ⟨q, hq⟩ := added_project x.issued hp hc
    exact ⟨q, _, .addNode hq⟩

theorem Pruned.alike {needed cs : List Column} {n m : Nat} {p q : Plan} {s t : Statistics}
    (h : Pruned needed n p m q) (hp : p.Estimated s) (hq : q.Estimated t) (hd : p.DistinctColumns)
    (hs : p.Shows needed) (hc : cs ⊆ needed) : Statistics.Alike s t cs :=
  hp.alike hq hd (.of_eq h.scans) fun _ hm => h.columns hp hd hs (hc hm)

theorem succeeds_pair {op : Operator} {l r : Plan} {i : NodeId} {e : Option Statistics}
    {s t u : Statistics} {needed : List Column} (ho : op.arity = 2)
    (hp : (Plan.mk op [l, r] i e).Estimated s) (hl : l.Estimated t) (hr : r.Estimated u)
    (hd : (Plan.mk op [l, r] i e).DistinctColumns) (hs : (Plan.mk op [l, r] i e).Shows needed)
    (ihl : ∀ needed, l.DistinctColumns → l.Shows needed → ∀ x, Succeeds (push needed l) x)
    (ihr : ∀ needed, r.DistinctColumns → r.Shows needed → ∀ x, Succeeds (push needed r) x)
    (x : Progress) :
    Succeeds (do
      let qs ← pushAll (needed ++ op.used) [l, r]
      keepNeeded needed (← addNode op qs)) x := by
  obtain ⟨hdl, hdr, _⟩ := hd.binary
  obtain ⟨hsl, hsr⟩ := hs.sides ho hp hd
  obtain ⟨l', y, hy⟩ := ihl (needed ++ op.used) hdl hsl x
  obtain ⟨r', z, hz⟩ := ihr (needed ++ op.used) hdr hsr y
  have left := pruned_of_returns hl hy
  have right := pruned_of_returns hr hz
  obtain ⟨t', hl'⟩ := left.known hl
  obtain ⟨u', hr'⟩ := right.known hr
  obtain ⟨p, added⟩ := added_binary z.issued hp hl hr hl' hr'
    (left.alike hl hl' hdl hsl (List.subset_append_right _ _))
    (right.alike hr hr' hdr hsr (List.subset_append_right _ _))
  obtain ⟨_, hk⟩ := added.binary hl' hr' ho
  rw [pushAll_eq_mapM]
  refine Returns.bind (returns_mapM_two.mpr ⟨l', r', y, hy, hz, rfl⟩) ?_
  exact Returns.bind (.addNode added) (succeeds_keepNeeded hk _)

theorem succeeds_push {p : Plan} {s : Statistics} (needed : List Column) (hp : p.Estimated s)
    (hd : p.DistinctColumns) (hs : p.Shows needed) (x : Progress) :
    Succeeds (push needed p) x := by
  induction hp generalizing needed x with
  | scan r i => exact succeeds_keepNeeded (.scan r i) x
  | @select q s t predicate i hq he ih =>
      have hsq := hs.unary (.select i hq he)
      obtain ⟨q', u, h⟩ := ih _ hd.unary hsq x
      have pruned := pruned_of_returns hq h
      obtain ⟨v, hv⟩ := pruned.known hq
      obtain ⟨p, added⟩ := added_unary u.issued (.select i hq he) hq hv
        (pruned.alike hq hv hd.unary hsq (List.subset_append_right _ _))
      obtain ⟨_, _, hk⟩ := added.select hv
      rw [push, pushAll_eq_mapM]
      refine Returns.bind (returns_mapM_one.mpr ⟨q', h, rfl⟩) ?_
      exact Returns.bind (.addNode added) (succeeds_keepNeeded hk _)
  | project i hq he ih =>
      rw [push]
      exact ih _ hd.unary (hs.unary (.project i hq he)) x
  | product i hl hr ihl ihr =>
      have h := succeeds_pair rfl (.product i hl hr) hl hr hd hs ihl ihr x
      rw [Operator.used, List.append_nil] at h
      rwa [push]
  | join i hl hr he ihl ihr =>
      rw [push]
      exact succeeds_pair rfl (.join i hl hr he) hl hr hd hs ihl ihr x

section Run

variable {p q : Plan} {s t : Progress} {e : Statistics} {db : Database}

/-- The rule leaves a plan alone, or prunes it below the projection at its root. -/
theorem pruned_of_run (h : Returns (run p) s q t) (hp : p.Estimated e) :
    (q = p ∧ t = s) ∨ Pruned [] s.issued p t.issued q := by
  obtain ⟨op, qs, i, _⟩ := p
  cases op with
  | project cs => exact .inr (pruned_of_returns hp h)
  | scan _ | select _ | product | join _ => exact .inl (returns_pure.mp h)

theorem run_bare (hb : p.operator.columns? = none) : run p = pure p := by
  obtain ⟨op, qs, i, _⟩ := p
  cases op with
  | project cs => cases hb
  | scan _ | select _ | product | join _ => rfl

theorem renewed_of_run (h : Returns (run p) s q t) (hp : p.Estimated e) :
    Renewed s.issued p t.issued q := by
  obtain ⟨rfl, rfl⟩ | pruned := pruned_of_run h hp
  · exact .refl _ hp
  · exact ⟨pruned.le, pruned.known hp, .of_eq pruned.scans⟩

theorem conserved_of_run (h : Returns (run p) s q t) (hp : p.Estimated e) :
    Conserved s.issued p t.issued q := by
  obtain ⟨rfl, rfl⟩ | pruned := pruned_of_run h hp
  · exact .refl _ _
  · exact ⟨by rw [pruned.predicates], pruned.ids_le⟩

/-- Below a projection that keeps something, and all that projections right below it list, the
plan keeps just as much. -/
theorem faithful_of_pruned {cs : List Column} {n m : Nat} {i : NodeId} {x : Option Statistics}
    (h : Pruned cs n p m q) (hp : (Plan.mk (.project cs) [p] i x).Estimated e)
    (hh : p.heading ⊆ cs) (hd : p.DistinctColumns) (hc : cs ≠ []) (hdb : p.Fitted db) :
    Faithful db ⟨.project cs, [p], i, x⟩ q := by
  obtain ⟨c, hcm⟩ := List.exists_mem_of_ne_nil cs hc
  have hused : cs ⊆ p.columns := hp.used_unary
  have hs : p.Shows cs := shows_of_subset hused
  cases hp with
  | project _ hp he =>
      have hsub := h.columns_subset hp hd hs hh hcm (hused hcm)
      obtain ⟨_, hq⟩ := h.known hp
      refine ⟨fun d => ?_, List.Perm.of_eq ?_⟩
      · rw [Plan.columns, List.mem_filter, decide_eq_true_iff]
        refine ⟨fun hm => ⟨(h.columns hp hd hs (hsub hm)).mp hm, hsub hm⟩, fun hm => ?_⟩
        exact (h.columns hp hd hs hm.2).mpr hm.1
      · have hfill := hq.fills fun r hr => hdb r (h.scans ▸ hr)
        have hid : (q.rows db).map (Row.restrict cs) = q.rows db :=
          (List.map_congr_left fun row hr => Row.restrict_of_subset (hfill row hr) hsub).trans
            (List.map_id _)
        rw [Plan.rows, ← hid, h.rows hp hd hs hdb]

theorem faithful_of_run {o : Option (List Column)} (h : Returns (run p) s q t)
    (hp : p.Estimated e) (hr : Rooted o p) (ho : o ≠ some []) (hd : p.DistinctColumns)
    (hdb : p.Fitted db) : Faithful db p q := by
  cases hr with
  | bare hf =>
      rw [run_bare (hf p (mem_preorder_self p))] at h
      obtain ⟨rfl, rfl⟩ := returns_pure.mp h
      exact .refl db _
  | @under cs x i _ hf =>
      have hc : cs ≠ [] := fun hn => ho (congrArg some hn)
      have hx := pruned_of_returns hp h
      generalize s.issued = n, t.issued = m at hx
      cases hx with
      | project input =>
          exact faithful_of_pruned input hp (hf.heading_eq ▸ List.nil_subset _) hd.unary hc
            hdb.unary

theorem succeeds_run (hp : p.Estimated e) (hd : p.DistinctColumns) (x : Progress) :
    Succeeds (run p) x := by
  unfold run
  split
  · exact succeeds_push [] hp hd (shows_of_subset (List.nil_subset _)) x
  all_goals exact succeeds_pure

end Run

end QueryPlan.PushProjects
