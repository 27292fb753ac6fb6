import QueryPlan.Proofs.Conserved
import QueryPlan.Proofs.Floating

/-!
Pushing selections down. `Pushed` is the rule as a relation, one case for what may
happen at a node.
-/

namespace QueryPlan

namespace Plan

def innerIds (p : Plan) : List NodeId :=
  (p.preorder.filter fun x => !x.inputs.isEmpty).map Plan.id

section InnerIds

variable (op : Operator) (q l r : Plan) (i : NodeId) (e : Option Statistics)

@[simp] theorem innerIds_leaf : (Plan.mk op [] i e).innerIds = [] :=
  rfl

@[simp] theorem innerIds_unary : (Plan.mk op [q] i e).innerIds = i :: q.innerIds := by
  rw [innerIds, preorder_unary]
  rfl

@[simp] theorem innerIds_binary :
    (Plan.mk op [l, r] i e).innerIds = i :: (l.innerIds ++ r.innerIds) := by
  rw [innerIds, preorder_binary, List.filter_cons_of_pos rfl, List.filter_append, List.map_cons,
    List.map_append]
  rfl

end InnerIds

theorem innerIds_sublist (p : Plan) : p.innerIds.Sublist p.ids :=
  List.filter_sublist.map _

end Plan

theorem Floating.Apart.inner {f : Floating} {p : Plan} (h : f.Apart p.ids) : f.Apart p.innerIds :=
  h.mono (.refl _) p.innerIds_sublist

namespace PushSelects

open Planner Plan

def scanTakes (r : BaseRelation) (predicate : Predicate) : Bool :=
  predicate.isEqualsValue && predicate.left ∈ r.statistics

/-- The plan below, with what floats above it before and after, and the numbers given out. -/
inductive Pushed : Nat → Plan → Floating → Nat → Plan → Floating → Prop
  | scan {n m : Nat} {r : BaseRelation} {ps : List Plan} {i : NodeId} {e : Option Statistics}
      {f : Floating} {q : Plan}
      (stacked : Stacked n ⟨.scan r, ps, i, e⟩ (f.taken (scanTakes r)) m q) :
      Pushed n ⟨.scan r, ps, i, e⟩ f m q (f.untaken (scanTakes r))
  | kept {n m : Nat} {predicate : Predicate} {q q' p : Plan} {qs : List Plan} {i : NodeId}
      {e : Option Statistics} {f f' g : Floating}
      (input : Pushed n q (f.add i predicate) m q' f') (found : f'.remove? i = some g)
      (added : Added m (.select predicate) [q'] p) :
      Pushed n ⟨.select predicate, q :: qs, i, e⟩ f (m + 1) p g
  | landed {n m : Nat} {predicate : Predicate} {q q' : Plan} {qs : List Plan} {i : NodeId}
      {e : Option Statistics} {f f' : Floating}
      (input : Pushed n q (f.add i predicate) m q' f') (gone : f'.remove? i = none) :
      Pushed n ⟨.select predicate, q :: qs, i, e⟩ f m q' f'
  | project {n m : Nat} {cs : List Column} {q q' p : Plan} {qs : List Plan} {i : NodeId}
      {e : Option Statistics} {f f' : Floating}
      (input : Pushed n q f m q' f') (added : Added m (.project cs) [q'] p) :
      Pushed n ⟨.project cs, q :: qs, i, e⟩ f (m + 1) p f'
  | pair {n m k j : Nat} {op : Operator} {l r l' r' b p : Plan} {qs : List Plan} {i : NodeId}
      {e : Option Statistics} {f g h : Floating} {s : Statistics} (binary : op.arity = 2)
      (left : Pushed n l f m l' g) (right : Pushed m r g k r' h)
      (added : Added k op [l', r'] b) (output : b.output = .ok s)
      (stacked : Stacked (k + 1) b (h.taken fun predicate => predicate.CoveredBy s) j p) :
      Pushed n ⟨op, l :: r :: qs, i, e⟩ f j p (h.untaken fun predicate => predicate.CoveredBy s)

theorem returns_settle {p : Plan} {f : Floating} {test : Predicate → Bool}
    {event : Predicate → Event} {x : Plan × Floating} {s t : Progress}
    (h : Returns (settle p f test event) s x t) :
    Stacked s.issued p (f.taken test) t.issued x.1 ∧ x.2 = f.untaken test := by
  obtain ⟨_, u, reported, h⟩ := returns_bind.mp h
  obtain ⟨q, v, stacked, h⟩ := returns_bind.mp h
  obtain ⟨rfl, rfl⟩ := returns_pure.mp h
  obtain ⟨w, hw, issued⟩ := returns_forM_report (f.taken test) event s
  obtain ⟨_, rfl⟩ := reported.unique hw
  exact ⟨issued ▸ stacked_of_returns stacked, rfl⟩

theorem returns_settleCovered {p : Plan} {f : Floating} {x : Plan × Floating} {s t : Progress}
    (h : Returns (settleCovered p f) s x t) :
    ∃ e, p.output = .ok e ∧
      Stacked s.issued p (f.taken fun predicate => predicate.CoveredBy e) t.issued x.1 ∧
      x.2 = f.untaken fun predicate => predicate.CoveredBy e := by
  obtain ⟨e, u, lifted, settled⟩ := returns_bind.mp h
  obtain ⟨output, rfl⟩ := returns_lift.mp lifted
  exact ⟨e, output, returns_settle settled⟩

theorem pushed_of_returns {p : Plan} {f : Floating} {x : Plan × Floating} {s t : Progress}
    (h : Returns (push p f) s x t) : Pushed s.issued p f t.issued x.1 x.2 := by
  fun_induction push p f generalizing s t x with
  | case1 r ps i e f =>
      obtain ⟨stacked, rest⟩ := returns_settle h
      rw [rest]
      exact .scan stacked
  | case2 | case4 | case6 | case7 => exact (returns_throw.mp h).elim
  | case3 predicate q qs i e f ih =>
      obtain ⟨⟨q', f'⟩, u, pushed, h⟩ := returns_bind.mp h
      have input := ih pushed
      dsimp only at h
      split at h
      · rename_i g found
        obtain ⟨_, v, reported, h⟩ := returns_bind.mp h
        obtain ⟨p, w, made, h⟩ := returns_bind.mp h
        obtain ⟨rfl, rfl⟩ := returns_pure.mp h
        obtain ⟨added, rfl⟩ := returns_addNode.mp made
        rw [returns_report.mp reported] at added ⊢
        exact .kept input found added
      · rename_i gone
        obtain ⟨rfl, rfl⟩ := returns_pure.mp h
        exact .landed input gone
  | case5 cs q qs i e f ih =>
      obtain ⟨⟨q', f'⟩, u, pushed, h⟩ := returns_bind.mp h
      have input := ih pushed
      obtain ⟨p, w, made, h⟩ := returns_bind.mp h
      obtain ⟨rfl, rfl⟩ := returns_pure.mp h
      obtain ⟨added, rfl⟩ := returns_addNode.mp made
      exact .project input added
  | case8 | case9 =>
      obtain ⟨_, _, _, h⟩ := returns_bind.mp h
      exact (returns_throw.mp h).elim
  | case10 l r qs i e f ihl ihr | case11 predicate l r qs i e f ihl ihr =>
      obtain ⟨⟨l', g⟩, u, left, h⟩ := returns_bind.mp h
      obtain ⟨⟨r', k⟩, v, right, h⟩ := returns_bind.mp h
      obtain ⟨b, w, made, settled⟩ := returns_bind.mp h
      obtain ⟨added, rfl⟩ := returns_addNode.mp made
      obtain ⟨o, output, stacked, rest⟩ := returns_settleCovered settled
      rw [rest]
      exact .pair rfl (ihl left) (ihr _ right) added output stacked

namespace Pushed

variable {n m : Nat} {p q : Plan} {f g : Floating} {s : Statistics}

theorem le (h : Pushed n p f m q g) : n ≤ m := by
  induction h with
  | scan stacked => exact stacked.le
  | kept _ _ _ ih | project _ _ ih => omega
  | landed _ _ ih => exact ih
  | pair _ _ _ _ _ stacked ihl ihr =>
      have hs := stacked.le
      omega

theorem columns (h : Pushed n p f m q g) (hp : p.Estimated s) : q.columns = p.columns := by
  induction h generalizing s with
  | scan stacked => exact stacked.columns
  | kept _ _ added ih =>
      cases added
      cases hp with
      | select _ hq _ => exact ih hq
  | landed _ _ ih =>
      cases hp with
      | select _ hq _ => exact ih hq
  | project _ added ih =>
      cases added
      cases hp with
      | project _ hq _ => simp only [Plan.columns, ih hq]
  | pair binary _ _ added _ stacked ihl ihr =>
      cases added
      obtain ⟨rfl, ⟨_, hl⟩, ⟨_, hr⟩⟩ := hp.binary
      rw [stacked.columns, columns_binary binary, columns_binary binary, ihl hl, ihr hr]

theorem usable {c : Column} (h : Pushed n p f m q g) (hp : p.Estimated s) :
    q.Usable c ↔ p.Usable c := by
  induction h generalizing s with
  | scan stacked => exact stacked.usable
  | kept _ _ added ih =>
      cases added
      cases hp with
      | select _ hq _ => exact ih hq
  | landed _ _ ih =>
      cases hp with
      | select _ hq _ => exact ih hq
  | project _ added ih =>
      cases added
      cases hp with
      | project _ hq _ => simp only [Plan.Usable, ih hq]
  | pair binary left _ added _ stacked ihl ihr =>
      cases added
      obtain ⟨rfl, ⟨_, hl⟩, ⟨_, hr⟩⟩ := hp.binary
      rw [stacked.usable, usable_binary binary, usable_binary binary, ihl hl, ihr hr,
        left.columns hl]

theorem scans (h : Pushed n p f m q g) (hp : p.Estimated s) : q.scans = p.scans := by
  induction h generalizing s with
  | scan stacked => exact stacked.scans
  | kept _ _ added ih =>
      cases added
      cases hp with
      | select _ hq _ => simp [ih hq]
  | landed _ _ ih =>
      cases hp with
      | select _ hq _ => simpa [Operator.relation?] using ih hq
  | project _ added ih =>
      cases added
      cases hp with
      | project _ hq _ => simp [ih hq]
  | pair binary _ _ added _ stacked ihl ihr =>
      cases added
      obtain ⟨rfl, ⟨_, hl⟩, ⟨_, hr⟩⟩ := hp.binary
      rw [stacked.scans, scans_binary, scans_binary, ihl hl, ihr hr]

theorem estimated (h : Pushed n p f m q g) (hp : p.Estimated s) : ∃ t, q.Estimated t := by
  induction h generalizing s with
  | scan stacked => exact stacked.estimated hp
  | kept _ _ added ih =>
      cases hp with
      | select _ hq _ =>
          obtain ⟨t, ht⟩ := ih hq
          exact added.unary ht rfl
  | landed _ _ ih =>
      cases hp with
      | select _ hq _ => exact ih hq
  | project _ added ih =>
      cases hp with
      | project _ hq _ =>
          obtain ⟨t, ht⟩ := ih hq
          exact added.unary ht rfl
  | pair binary _ _ added _ stacked ihl ihr =>
      obtain ⟨rfl, ⟨_, hl⟩, ⟨_, hr⟩⟩ := hp.binary
      obtain ⟨t, ht⟩ := ihl hl
      obtain ⟨u, hu⟩ := ihr hr
      obtain ⟨v, hv⟩ := added.binary ht hu binary
      exact stacked.estimated hv

theorem every {P : Operator → Prop} (h : Pushed n p f m q g) (hp : p.Estimated s)
    (hs : ∀ predicate, P (.select predicate)) (hP : p.Every P) : q.Every P := by
  induction h generalizing s with
  | scan stacked => exact stacked.every hs hP
  | kept _ _ added ih | project _ added ih =>
      cases added
      cases hp
      rw [every_unary] at hP ⊢
      exact ⟨hP.1, ih ‹_› hP.2⟩
  | landed _ _ ih =>
      cases hp with
      | select _ hq _ => exact ih hq ((every_unary _).mp hP).2
  | pair _ _ _ added _ stacked ihl ihr =>
      cases added
      obtain ⟨rfl, ⟨_, hl⟩, ⟨_, hr⟩⟩ := hp.binary
      rw [every_binary] at hP
      exact stacked.every hs ((every_binary _).mpr ⟨hP.1, ihl hl hP.2.1, ihr hr hP.2.2⟩)

theorem rooted {o : Option (List Column)} (h : Pushed n p f m q g) (hp : p.Estimated s)
    (hr : Rooted o p) : Rooted o q := by
  cases hr with
  | bare hf => exact .bare (h.every hp (fun _ => rfl) hf)
  | under hf =>
      cases hp with
      | project _ hq _ =>
          cases h with
          | project input added =>
              cases added
              exact .under (input.every hq (fun _ => rfl) hf)

/-- Whatever the origins, what floats afterwards has floated before or stood in the plan. -/
theorem floating_subset (h : Pushed n p f m q g) (hp : p.Estimated s) :
    g.predicates ⊆ f.predicates ++ p.predicates := by
  induction h generalizing s with
  | scan _ =>
      exact List.subset_append_of_subset_left _ ((Floating.untaken_sublist _ _).map _).subset
  | @kept _ _ predicate _ _ _ _ _ _ f _ g _ found _ ih =>
      cases hp with
      | select _ hq _ =>
          obtain ⟨e, _, hperm⟩ := Floating.perm_of_remove? found
          have hg : g.predicates ⊆ _ := fun p hm =>
            ih hq ((hperm.map _).mem_iff.mpr (List.mem_cons_of_mem _ hm))
          simpa [Floating.predicates_add, Operator.predicate?] using hg
  | landed _ _ ih =>
      cases hp with
      | select _ hq _ => simpa [Floating.predicates_add, Operator.predicate?] using ih hq
  | project _ _ ih =>
      cases hp with
      | project _ hq _ => simpa [Operator.predicate?] using ih hq
  | pair _ _ _ _ _ _ ihl ihr =>
      obtain ⟨rfl, ⟨_, hl⟩, ⟨_, hr⟩⟩ := hp.binary
      intro p hm
      have hh := ihr hr (((Floating.untaken_sublist _ _).map _).subset hm)
      have hg := @ihl _ hl p
      rw [predicates_binary]
      simp only [List.mem_append] at hh hg ⊢
      tauto

/-- Nor does any other predicate come to stand in the plan. -/
theorem predicates_subset (h : Pushed n p f m q g) (hp : p.Estimated s) :
    q.predicates ⊆ f.predicates ++ p.predicates := by
  induction h generalizing s with
  | scan stacked =>
      intro a ha
      obtain ha | ha := stacked.mem_predicates.mp ha
      · exact List.mem_append_left _ (Floating.mem_taken.mp ha).1
      · exact List.mem_append_right _ ha
  | kept _ _ added ih =>
      cases added
      cases hp with
      | select _ hq _ =>
          rw [predicates_unary, List.append_subset]
          refine ⟨fun a ha => List.mem_append_right _ (List.mem_append_left _ ha), ?_⟩
          simpa [Floating.predicates_add, Operator.predicate?] using ih hq
  | landed _ _ ih =>
      cases hp with
      | select _ hq _ => simpa [Floating.predicates_add, Operator.predicate?] using ih hq
  | project _ added ih =>
      cases added
      cases hp with
      | project _ hq _ => simpa [Operator.predicate?] using ih hq
  | pair _ left right added _ stacked ihl ihr =>
      cases added
      obtain ⟨rfl, ⟨_, hl⟩, ⟨_, hr⟩⟩ := hp.binary
      have hg := left.floating_subset hl
      have hh := right.floating_subset hr
      have hql := ihl hl
      have hqr := ihr hr
      simp only [List.subset_def, List.mem_append, stacked.mem_predicates, Floating.mem_taken,
        predicates_binary] at hg hh hql hqr ⊢
      grind

/-- Each selection takes back one entry of its own number, or finds none. -/
theorem origins_le (h : Pushed n p f m q g) : (g.origins : Multiset NodeId) ≤ f.origins := by
  induction h with
  | scan _ => exact Floating.untaken_origins_le _ _
  | @kept _ _ _ _ _ _ _ _ _ _ f' g _ found _ ih =>
      obtain ⟨e, rfl, hperm⟩ := Floating.perm_of_remove? found
      have hf : (f'.origins : Multiset NodeId) = e.origin ::ₘ ↑g.origins :=
        Multiset.coe_eq_coe.mpr (hperm.map Floating.Entry.origin)
      rw [Floating.coe_origins_add, hf] at ih
      exact (Multiset.cons_le_cons_iff _).mp ih
  | @landed _ _ _ _ _ _ i _ _ f' _ gone ih =>
      rw [Floating.coe_origins_add] at ih
      refine (Multiset.le_cons_of_notMem fun hm => ?_).mp ih
      obtain ⟨e, he, ho⟩ := List.mem_map.mp (Multiset.mem_coe.mp hm)
      exact (Floating.remove?_eq_none_iff f' i).mp gone e he ho
  | project _ _ ih => exact ih
  | pair _ _ _ _ _ _ ihl ihr =>
      exact (Floating.untaken_origins_le _ _).trans (ihr.trans ihl)

/-- Where nothing has floated, nothing floats afterwards. -/
theorem eq_nil (h : Pushed n p [] m q g) : g = [] := by
  have hg := Multiset.le_zero.mp h.origins_le
  exact List.map_eq_nil_iff.mp ((Multiset.coe_eq_zero _).mp hg)

/-- Whatever the numbers, a selection taken back for another leaves that other afloat in its
place. -/
theorem tally_add {w : Operator → Nat} {F : Plan → Nat} (h : Pushed n p f m q g)
    (hF : Tally w F) (hp : p.Estimated s) : F q + g.length = F p + f.length := by
  induction h generalizing s with
  | @scan _ _ r _ _ _ f _ stacked =>
      have hf := f.length_taken_add_untaken (scanTakes r)
      have hq := stacked.tally hF
      omega
  | kept _ found added ih =>
      cases added
      cases hp with
      | select _ hq _ =>
          obtain ⟨_, _, hperm⟩ := Floating.perm_of_remove? found
          have hf := hperm.length_eq
          have hi := ih hq
          rw [Floating.length_add] at hi
          rw [List.length_cons] at hf
          rw [hF.unary, hF.unary]
          omega
  | landed _ _ ih =>
      cases hp with
      | select _ hq _ =>
          have hi := ih hq
          rw [Floating.length_add] at hi
          rw [hF.unary, hF.select]
          omega
  | project _ added ih =>
      cases added
      cases hp with
      | project _ hq _ =>
          have hi := ih hq
          rw [hF.unary, hF.unary]
          omega
  | @pair _ _ _ _ _ _ _ _ _ _ _ _ _ _ _ _ h u _ _ _ added _ stacked ihl ihr =>
      cases added
      obtain ⟨rfl, ⟨_, hl⟩, ⟨_, hr⟩⟩ := hp.binary
      have hf := h.length_taken_add_untaken fun predicate => predicate.CoveredBy u
      have hq := stacked.tally hF
      have hil := ihl hl
      have hir := ihr hr
      rw [hF.binary] at hq ⊢
      omega

/-- What still floats did so before, in the same order. It is enough to tell the nodes apart that
have inputs, selections among them. -/
theorem sublist_of_inner (h : Pushed n p f m q g) (hp : p.Estimated s)
    (ha : f.Apart p.innerIds) : g.Sublist f := by
  induction h generalizing s with
  | scan stacked => exact Floating.untaken_sublist _ _
  | kept _ found _ ih =>
      cases hp with
      | select _ hq _ =>
          rw [innerIds_unary] at ha
          have hs := ih hq ha.add
          obtain ⟨a, _, hf, hr⟩ | ⟨_, hr⟩ := Floating.sublist_add hs ha.not_mem
          · rw [found, Option.some.injEq] at hr
            exact hr ▸ hf
          · rw [found] at hr
            cases hr
  | landed _ gone ih =>
      cases hp with
      | select _ hq _ =>
          rw [innerIds_unary] at ha
          have hs := ih hq ha.add
          obtain ⟨a, _, hf, hr⟩ | ⟨hf, _⟩ := Floating.sublist_add hs ha.not_mem
          · rw [gone] at hr
            cases hr
          · exact hf
  | project _ _ ih =>
      cases hp with
      | project _ hq _ => exact ih hq (ha.mono (List.Sublist.refl _) (by simp))
  | pair binary _ _ _ _ _ ihl ihr =>
      obtain ⟨rfl, ⟨_, hl⟩, ⟨_, hr⟩⟩ := hp.binary
      have hgl := ihl hl (ha.mono (List.Sublist.refl _) (by simp))
      have hgr := ihr hr (ha.mono hgl (by simp))
      exact (Floating.untaken_sublist _ _).trans (hgr.trans hgl)

theorem sublist (h : Pushed n p f m q g) (hp : p.Estimated s) (ha : f.Apart p.ids) :
    g.Sublist f :=
  h.sublist_of_inner hp ha.inner

theorem ids_le (h : Pushed n p f m q g) (hp : p.Estimated s) :
    (q.ids : Multiset NodeId) ≤ p.ids + numbers n m := by
  induction h generalizing s with
  | scan stacked => exact stacked.ids_eq.le
  | kept input _ added ih =>
      cases hp with
      | select _ hq _ => exact added.ids_unary_le (ih hq) input.le
  | landed _ _ ih =>
      cases hp with
      | select _ hq _ =>
          rw [ids_unary, ← Multiset.cons_coe, Multiset.cons_add]
          exact (ih hq).trans (Multiset.le_cons_self _ _)
  | project input added ih =>
      cases hp with
      | project _ hq _ => exact added.ids_unary_le (ih hq) input.le
  | pair binary left right added _ stacked ihl ihr =>
      obtain ⟨rfl, ⟨_, hl⟩, ⟨_, hr⟩⟩ := hp.binary
      rw [stacked.ids_eq]
      refine ids_le_of_add ?_ (Nat.le_succ_of_le (left.le.trans right.le)) stacked.le
      exact added.ids_binary_le (ihl hl) left.le (ihr hr) right.le

theorem innerIds_eq (h : Pushed n p f m q g) (hp : p.Estimated s) :
    (q.innerIds : Multiset NodeId) = numbers n m := by
  induction h generalizing s with
  | scan stacked =>
      cases hp with
      | scan _ _ => simpa using stacked.numbers_eq innerIds_unary
  | kept input _ added ih =>
      cases added
      cases hp with
      | select _ hq _ =>
          rw [innerIds_unary, ← Multiset.cons_coe, ih hq, cons_numbers input.le]
  | landed _ _ ih =>
      cases hp with
      | select _ hq _ => exact ih hq
  | project input added ih =>
      cases added
      cases hp with
      | project _ hq _ =>
          rw [innerIds_unary, ← Multiset.cons_coe, ih hq, cons_numbers input.le]
  | pair _ left right added _ stacked ihl ihr =>
      cases added
      obtain ⟨rfl, ⟨_, hl⟩, ⟨_, hr⟩⟩ := hp.binary
      have hk := left.le.trans right.le
      rw [stacked.numbers_eq innerIds_unary, innerIds_binary, ← Multiset.cons_coe,
        ← Multiset.coe_add, ihl hl, ihr hr, numbers_add left.le right.le, cons_numbers hk,
        numbers_add (Nat.le_succ_of_le hk) stacked.le]

end Pushed

end PushSelects

end QueryPlan
