import QueryPlan.Proofs.Conserved
import QueryPlan.Proofs.Floating
import Mathlib.Data.List.MinMax

/-!
Fusing joins. `Fused` is the rule as a relation, one case for what may happen at a
node: an equation on the way is taken by the first product whose inputs it links,
or it stays where it was. Of several that link them the product takes its `choice`.
-/

namespace QueryPlan.FuseJoins

open Planner Plan

/-- The predicate of a join, its left column turned to the left input where that has it. -/
def turned (predicate : Predicate) (s : Statistics) : Predicate :=
  if predicate.left ∈ s then predicate else predicate.swapped

theorem form_turned (predicate : Predicate) (s : Statistics) :
    (turned predicate s).form = predicate.form := by
  unfold turned
  split
  · rfl
  · exact Predicate.form_swapped predicate

theorem satisfies_turned (row : Row) (predicate : Predicate) (s : Statistics) :
    row.Satisfies (turned predicate s) ↔ row.Satisfies predicate := by
  unfold turned
  split
  · rfl
  · exact Row.satisfies_swapped row predicate

def expected (s : Statistics) (predicate : Predicate) : Nat :=
  match s.select predicate with
  | .ok t => t.tuples.toNat
  | .error _ => 0

/-- Of the entries that link two inputs, the one that leaves the fewest tuples of the product's
output `d`, the first of equals. -/
def choice (d s t : Statistics) (f : Floating) : Option Floating.Entry :=
  (f.filter fun e => e.predicate.Links s t).argmin fun e => expected d e.predicate

theorem choice_eq_none {d s t : Statistics} {f : Floating} :
    choice d s t f = none ↔ ∀ e ∈ f, ¬ e.predicate.Links s t := by
  simp [choice, List.argmin_eq_none]

theorem mem_of_choice {d s t : Statistics} {f : Floating} {e : Floating.Entry}
    (h : choice d s t f = some e) : e ∈ f ∧ e.predicate.Links s t := by
  obtain ⟨hf, hlinks⟩ := List.mem_filter.mp (List.argmin_mem h)
  exact ⟨hf, of_decide_eq_true hlinks⟩

/-- The plan below with the equations above it before and after, and the numbers given out. -/
inductive Fused : Nat → Plan → Floating → Nat → Plan → Floating → Prop
  | scan {n : Nat} {r : BaseRelation} {ps : List Plan} {i : NodeId} {e : Option Statistics}
      {f : Floating} : Fused n ⟨.scan r, ps, i, e⟩ f n ⟨.scan r, ps, i, e⟩ f
  | valued {n m : Nat} {predicate : Predicate} {q q' p : Plan} {i : NodeId}
      {e : Option Statistics} {f g : Floating} (value : predicate.isEqualsValue = true)
      (input : Fused n q f m q' g) (added : Added m (.select predicate) [q'] p) :
      Fused n ⟨.select predicate, [q], i, e⟩ f (m + 1) p g
  | kept {n m : Nat} {predicate : Predicate} {q q' p : Plan} {i : NodeId}
      {e : Option Statistics} {f f' g : Floating}
      (input : Fused n q (f.add i predicate) m q' f') (found : f'.remove? i = some g)
      (added : Added m (.select predicate) [q'] p) :
      Fused n ⟨.select predicate, [q], i, e⟩ f (m + 1) p g
  | gone {n m : Nat} {predicate : Predicate} {q q' : Plan} {i : NodeId}
      {e : Option Statistics} {f f' : Floating}
      (input : Fused n q (f.add i predicate) m q' f') (gone : f'.remove? i = none) :
      Fused n ⟨.select predicate, [q], i, e⟩ f m q' f'
  | project {n m : Nat} {cs : List Column} {q q' p : Plan} {i : NodeId}
      {e : Option Statistics} {f g : Floating} (input : Fused n q f m q' g)
      (added : Added m (.project cs) [q'] p) :
      Fused n ⟨.project cs, [q], i, e⟩ f (m + 1) p g
  | unlinked {n m k : Nat} {l r l' r' p : Plan} {i : NodeId} {e : Option Statistics}
      {s t : Statistics} {f g h : Floating} (onLeft : l.Estimated s) (onRight : r.Estimated t)
      (none : ∀ x ∈ f, ¬ x.predicate.Links s t) (left : Fused n l [] m l' g)
      (right : Fused m r [] k r' h) (added : Added k .product [l', r'] p) :
      Fused n ⟨.product, [l, r], i, e⟩ f (k + 1) p f
  | linked {n m k : Nat} {l r l' r' p : Plan} {i : NodeId} {d s t u : Statistics}
      {f g h : Floating} {x : Floating.Entry} (onLeft : l.Estimated s) (onRight : r.Estimated t)
      (chosen : choice d s t f = some x) (left : Fused n l [] m l' g) (right : Fused m r [] k r' h)
      (output : l'.output = .ok u) (added : Added k (.join (turned x.predicate u)) [l', r'] p) :
      Fused n ⟨.product, [l, r], i, some d⟩ f (k + 1) p ((f.remove? x.origin).getD f)
  | join {n m k : Nat} {predicate : Predicate} {l r l' r' p : Plan} {i : NodeId}
      {e : Option Statistics} {f g h : Floating} (left : Fused n l [] m l' g)
      (right : Fused m r [] k r' h) (added : Added k (.join predicate) [l', r'] p) :
      Fused n ⟨.join predicate, [l, r], i, e⟩ f (k + 1) p f

/-- Candidates are weighed as `argmin` weighs them. -/
theorem returns_cheapest {s : Statistics} {candidates : Floating}
    {o : Option (Floating.Entry × Count)} {x t : Progress}
    (h : Returns (cheapest s candidates) x o t) :
    t.issued = x.issued ∧
      o.map Prod.fst = candidates.argmin fun e => expected s e.predicate := by
  unfold cheapest at h
  rw [List.argmin]
  obtain ⟨best, hb, hn⟩ : ∃ best : Option (Floating.Entry × Count), best = none ∧
      ∀ y ∈ best, y.2.toNat = expected s y.1.predicate := ⟨none, rfl, by simp⟩
  have hbest : best.map Prod.fst = none := by rw [hb, Option.map_none]
  rw [← hb] at h
  rw [← hbest]
  clear hb hbest
  induction candidates generalizing best x with
  | nil =>
      obtain ⟨rfl, rfl⟩ := returns_pure.mp h
      exact ⟨rfl, rfl⟩
  | cons e candidates ih =>
      rw [List.foldlM_cons] at h
      obtain ⟨next, u, step, rest⟩ := returns_bind.mp h
      obtain ⟨n, v, lifted, step⟩ := returns_bind.mp step
      obtain ⟨_, w, reported, step⟩ := returns_bind.mp step
      obtain ⟨hs, hv⟩ := returns_lift.mp lifted
      have hw := returns_report.mp reported
      have he : n.tuples.toNat = expected s e.predicate := by rw [expected, hs]
      have hnext : u.issued = x.issued ∧ (∀ y ∈ next, y.2.toNat = expected s y.1.predicate) ∧
          next.map Prod.fst = List.argAux (fun b c => expected s b.predicate <
            expected s c.predicate) (best.map Prod.fst) e := by
        cases best with
        | none =>
            obtain ⟨rfl, rfl⟩ := returns_pure.mp step
            exact ⟨by rw [hw, hv], by simpa using he, rfl⟩
        | some b =>
            obtain ⟨rfl, rfl⟩ := returns_pure.mp step
            have hb := hn b rfl
            have hlt : n.tuples < b.2 ↔ expected s e.predicate < expected s b.1.predicate := by
              rw [UInt64.lt_iff_toNat_lt, he, hb]
            refine ⟨by rw [hw, hv], ?_, ?_⟩
            · split <;> simpa
            · simp only [List.argAux, Option.map_some, hlt]
              split <;> rfl
      obtain ⟨hu, ho⟩ := ih next rest hnext.2.1
      exact ⟨hu.trans hnext.1, by rw [ho, hnext.2.2, List.foldl_cons]⟩

theorem returns_pick {p l r : Plan} {f : Floating} {d a b : Statistics}
    {o : Option Floating.Entry} {x t : Progress} (hp : p.Estimated d) (hl : l.Estimated a)
    (hr : r.Estimated b) (h : Returns (pick p l r f) x o t) :
    t.issued = x.issued ∧ o = choice d a b f := by
  obtain ⟨s, u, lifted, h₁⟩ := returns_bind.mp h
  obtain ⟨hd, hu⟩ := returns_lift.mp lifted
  obtain ⟨a', v, lifted, h₂⟩ := returns_bind.mp h₁
  obtain ⟨ha, hv⟩ := returns_lift.mp lifted
  obtain ⟨b', w, lifted, h₃⟩ := returns_bind.mp h₂
  obtain ⟨hb, hw⟩ := returns_lift.mp lifted
  obtain rfl := Except.ok.inj (hp.output_eq.symm.trans hd)
  obtain rfl := Except.ok.inj (hl.output_eq.symm.trans ha)
  obtain rfl := Except.ok.inj (hr.output_eq.symm.trans hb)
  have hrest : ∃ y : Progress, y.issued = w.issued ∧ Returns (do
      return (← cheapest d (f.filter fun e => e.predicate.Links a b)).map Prod.fst) y o t := by
    dsimp only at h₃
    split at h₃
    · obtain ⟨_, y, reported, h₄⟩ := returns_bind.mp h₃
      exact ⟨y, by rw [returns_report.mp reported], h₄⟩
    · exact ⟨w, rfl, h₃⟩
  obtain ⟨y, hy, h₄⟩ := hrest
  obtain ⟨c, z, weighed, h₅⟩ := returns_bind.mp h₄
  obtain ⟨rfl, rfl⟩ := returns_pure.mp h₅
  obtain ⟨hz, hc⟩ := returns_cheapest weighed
  exact ⟨by rw [hz, hy, hw, hv, hu], hc⟩

theorem returns_joined {predicate : Predicate} {l r p : Plan} {s : Statistics} {x t : Progress}
    (hl : l.output = .ok s) (h : Returns (joined predicate l r) x p t) :
    Added x.issued (.join (turned predicate s)) [l, r] p ∧ t.issued = x.issued + 1 := by
  obtain ⟨s', u, lifted, h₁⟩ := returns_bind.mp h
  obtain ⟨output, hu⟩ := returns_lift.mp lifted
  obtain ⟨_, v, reported, h₂⟩ := returns_bind.mp h₁
  obtain ⟨added, rfl⟩ := returns_addNode.mp h₂
  obtain rfl := Except.ok.inj (hl.symm.trans output)
  rw [returns_report.mp reported, hu] at added ⊢
  exact ⟨added, rfl⟩

/-- What is to be fused from above is in sight. -/
def Covered (p : Plan) (f : Floating) : Prop :=
  ∀ predicate ∈ f.predicates, predicate.columns ⊆ p.columns

namespace Covered

variable {q : Plan} {f : Floating} {i : NodeId} {e : Option Statistics}

theorem nil : Covered q [] :=
  List.forall_mem_nil _

theorem select {predicate : Predicate} {j : NodeId}
    (h : Covered ⟨.select predicate, [q], i, e⟩ f) (hc : predicate.columns ⊆ q.columns) :
    Covered q (f.add j predicate) := by
  intro p hp
  rw [Floating.predicates_add, List.mem_append, List.mem_singleton] at hp
  obtain hp | rfl := hp
  · exact h p hp
  · exact hc

theorem project {cs : List Column} (h : Covered ⟨.project cs, [q], i, e⟩ f) : Covered q f :=
  fun p hp _ hc => (List.mem_filter.mp (h p hp hc)).1

end Covered

namespace Fused

variable {n m : Nat} {p q : Plan} {f g : Floating} {s : Statistics}

theorem le (h : Fused n p f m q g) : n ≤ m := by
  induction h with
  | scan => exact Nat.le_refl _
  | gone _ _ ih => exact ih
  | valued _ _ _ ih | kept _ _ _ ih | project _ _ ih => omega
  | unlinked _ _ _ _ _ _ ihl ihr | linked _ _ _ _ _ _ _ ihl ihr | join _ _ _ ihl ihr => omega

theorem known (h : Fused n p f m q g) (hp : p.Estimated s) : ∃ t, q.Estimated t := by
  induction h generalizing s with
  | scan => exact ⟨s, hp⟩
  | valued _ _ added ih | kept _ _ added ih =>
      cases hp with
      | select _ hq _ =>
          obtain ⟨t, ht⟩ := ih hq
          exact added.unary ht rfl
  | gone _ _ ih =>
      cases hp with
      | select _ hq _ => exact ih hq
  | project _ added ih =>
      cases hp with
      | project _ hq _ =>
          obtain ⟨t, ht⟩ := ih hq
          exact added.unary ht rfl
  | unlinked hl hr _ _ _ added ihl ihr =>
      obtain ⟨t, ht⟩ := ihl hl
      obtain ⟨u, hu⟩ := ihr hr
      exact ⟨_, added.product ht hu⟩
  | linked hl hr _ _ _ _ added ihl ihr =>
      obtain ⟨t, ht⟩ := ihl hl
      obtain ⟨u, hu⟩ := ihr hr
      exact added.binary ht hu rfl
  | join _ _ added ihl ihr =>
      obtain ⟨_, ⟨_, hl⟩, ⟨_, hr⟩⟩ := hp.binary
      obtain ⟨t, ht⟩ := ihl hl
      obtain ⟨u, hu⟩ := ihr hr
      exact added.binary ht hu rfl

theorem scans (h : Fused n p f m q g) : q.scans = p.scans := by
  induction h with
  | scan => rfl
  | valued _ _ added ih | kept _ _ added ih | project _ added ih =>
      cases added
      simp [ih]
  | gone _ _ ih => simpa [Operator.relation?] using ih
  | unlinked _ _ _ _ _ added ihl ihr | linked _ _ _ _ _ _ added ihl ihr
  | join _ _ added ihl ihr =>
      cases added
      simp [ihl, ihr, Operator.relation?]

theorem columns (h : Fused n p f m q g) : q.columns = p.columns := by
  induction h with
  | scan => rfl
  | valued _ _ added ih | kept _ _ added ih | project _ added ih =>
      cases added
      simp only [Plan.columns, ih]
  | gone _ _ ih => exact ih
  | unlinked _ _ _ _ _ added ihl ihr | linked _ _ _ _ _ _ added ihl ihr
  | join _ _ added ihl ihr =>
      cases added
      simp only [Plan.columns, ihl, ihr]

theorem every {P : Operator → Prop} (h : Fused n p f m q g) (hj : ∀ predicate, P (.join predicate))
    (hP : p.Every P) : q.Every P := by
  induction h with
  | scan => exact hP
  | valued _ _ added ih | kept _ _ added ih | project _ added ih =>
      cases added
      rw [every_unary] at hP ⊢
      exact ⟨hP.1, ih hP.2⟩
  | gone _ _ ih => exact ih ((every_unary _).mp hP).2
  | unlinked _ _ _ _ _ added ihl ihr | join _ _ added ihl ihr =>
      cases added
      rw [every_binary] at hP ⊢
      exact ⟨hP.1, ihl hP.2.1, ihr hP.2.2⟩
  | linked _ _ _ _ _ _ added ihl ihr =>
      cases added
      rw [every_binary] at hP ⊢
      exact ⟨hj _, ihl hP.2.1, ihr hP.2.2⟩

theorem ids_le (h : Fused n p f m q g) : (q.ids : Multiset NodeId) ≤ p.ids + numbers n m := by
  induction h with
  | scan => exact Multiset.le_add_right _ _
  | valued _ input added ih | kept input _ added ih | project input added ih =>
      exact added.ids_unary_le ih input.le
  | gone _ _ ih =>
      rw [ids_unary, ← Multiset.cons_coe, Multiset.cons_add]
      exact ih.trans (Multiset.le_cons_self _ _)
  | unlinked _ _ _ left right added ihl ihr | linked _ _ _ left right _ added ihl ihr
  | join left right added ihl ihr =>
      exact added.ids_binary_le ihl left.le ihr right.le

theorem rooted {o : Option (List Column)} (h : Fused n p f m q g) (hr : Rooted o p) :
    Rooted o q := by
  cases hr with
  | bare hf => exact .bare (h.every (fun _ => rfl) hf)
  | under hf =>
      cases h with
      | project input added =>
          cases added
          exact .under (input.every (fun _ => rfl) hf)

theorem sublist (h : Fused n p f m q g) (ha : f.Apart p.ids) : g.Sublist f := by
  induction h with
  | scan | unlinked _ _ _ _ _ _ _ _ | join _ _ _ _ _ => exact .refl _
  | valued _ _ _ ih | project _ _ ih =>
      rw [ids_unary] at ha
      exact ih ha.input
  | kept _ found _ ih =>
      rw [ids_unary] at ha
      exact (Floating.back_of_some (ih ha.add) ha.not_mem found).2
  | gone _ gone ih =>
      rw [ids_unary] at ha
      exact Floating.back_of_none (ih ha.add) ha.not_mem gone
  | @linked _ _ _ _ _ _ _ _ _ _ _ _ _ f _ _ x _ _ _ _ _ _ _ _ _ =>
      cases hx : f.remove? x.origin with
      | none => exact .refl _
      | some g => exact Floating.remove?_sublist hx

theorem eq_nil (h : Fused n p [] m q g) (ha : Floating.Apart [] p.ids) : g = [] :=
  List.eq_nil_of_sublist_nil (h.sublist ha)

theorem forms (h : Fused n p f m q g) (ha : f.Apart p.ids) :
    Predicate.forms q.predicates + Predicate.forms g.predicates =
      Predicate.forms p.predicates + Predicate.forms f.predicates := by
  induction h with
  | scan => rfl
  | valued _ _ added ih | project _ added ih =>
      cases added
      rw [ids_unary] at ha
      have hi := ih ha.input
      simp only [predicates_unary, Predicate.forms_append, add_assoc, hi]
  | kept input found added ih =>
      cases added
      rw [ids_unary] at ha
      obtain ⟨rfl, _⟩ := Floating.back_of_some (input.sublist ha.add) ha.not_mem found
      have hi := ih ha.add
      simp only [Floating.predicates_add, Predicate.forms_append, ← add_assoc] at hi
      simp only [predicates_unary, Predicate.forms_append, add_assoc, add_right_cancel hi]
  | gone input gone ih =>
      rw [ids_unary] at ha
      have hi := ih ha.add
      rw [Floating.predicates_add, Predicate.forms_append] at hi
      rw [hi, predicates_unary, Predicate.forms_append, Operator.predicate?, Option.toList_some]
      ac_rfl
  | unlinked _ _ _ left right added ihl ihr | join left right added ihl ihr =>
      cases added
      rw [ids_binary] at ha
      have hil := ihl ha.inputs.1
      have hir := ihr ha.inputs.2
      rw [left.eq_nil ha.inputs.1] at hil
      rw [right.eq_nil ha.inputs.2] at hir
      simp only [predicates_binary, Predicate.forms_append, add_right_cancel hil,
        add_right_cancel hir]
  | @linked _ _ _ _ _ _ _ _ _ _ _ _ u f _ _ x _ _ chosen left right _ added ihl ihr =>
      cases added
      rw [ids_binary] at ha
      have hil := ihl ha.inputs.1
      have hir := ihr ha.inputs.2
      rw [left.eq_nil ha.inputs.1] at hil
      rw [right.eq_nil ha.inputs.2] at hir
      obtain ⟨g, removed, hperm⟩ := Floating.perm_of_mem (mem_of_choice chosen).1 ha.of_append_left
      have hf : Predicate.forms f.predicates = {x.predicate.form} + Predicate.forms g.predicates :=
        Predicate.forms_perm (hperm.map _)
      rw [removed, Option.getD_some, hf]
      simp only [predicates_binary, Predicate.forms_append, add_right_cancel hil,
        add_right_cancel hir, Operator.predicate?, Option.toList_some, Option.toList_none,
        Predicate.forms_cons, Predicate.forms_nil, form_turned, zero_add, add_zero]
      ac_rfl

/-- Whatever the numbers, no other predicate comes to stand in the plan. -/
theorem forms_subset (h : Fused n p f m q g) :
    Predicate.forms q.predicates ⊆ Predicate.forms (f.predicates ++ p.predicates) := by
  simp only [Predicate.forms_append, Multiset.subset_iff, Multiset.mem_add]
  induction h with
  | scan => exact fun _ => Or.inr
  | valued _ _ added ih | kept _ _ added ih | project _ added ih =>
      cases added
      simp only [predicates_unary, Floating.predicates_add, Predicate.forms_append,
        Predicate.forms_cons, Predicate.forms_nil, Multiset.mem_add, Operator.predicate?,
        Option.toList_some] at ih ⊢
      grind
  | gone _ _ ih =>
      simp only [predicates_unary, Floating.predicates_add, Predicate.forms_append,
        Multiset.mem_add, Operator.predicate?, Option.toList_some] at ih ⊢
      grind
  | unlinked _ _ _ _ _ added ihl ihr | join _ _ added ihl ihr =>
      cases added
      simp only [predicates_binary, Floating.predicates_nil, Predicate.forms_append,
        Predicate.forms_nil, Multiset.mem_add, Multiset.notMem_zero, false_or] at ihl ihr ⊢
      grind
  | @linked _ _ _ _ _ _ _ _ _ _ _ _ _ f _ _ x _ _ chosen _ _ _ added ihl ihr =>
      cases added
      have hx : x.predicate ∈ f.predicates := List.mem_map_of_mem (mem_of_choice chosen).1
      have hf : x.predicate.form ∈ Predicate.forms f.predicates :=
        Predicate.mem_forms.mpr ⟨_, hx, rfl⟩
      simp only [predicates_binary, Floating.predicates_nil, Predicate.forms_append,
        Predicate.forms_nil, Multiset.mem_add, Multiset.notMem_zero, false_or, Operator.predicate?,
        Option.toList_some, Option.toList_none, Predicate.forms_cons, form_turned, add_zero,
        Multiset.mem_singleton] at ihl ihr ⊢
      grind

theorem rows_of_landed_nil {db : Database}
    (h : (q.rows db).Perm ((p.rows db).filter fun row =>
      ∀ predicate ∈ Floating.landed [] g, row.Satisfies predicate)) :
    (q.rows db).Perm (p.rows db) := by
  simpa [Floating.landed_nil] using h

/-- A fused plan returns the rows that satisfy the equation it has taken from above. -/
theorem rows_perm {db : Database} (h : Fused n p f m q g) (hp : p.Estimated s)
    (ha : f.Apart p.ids) (hc : Covered p f) :
    (q.rows db).Perm
      ((p.rows db).filter fun row => ∀ predicate ∈ f.landed g, row.Satisfies predicate) := by
  induction h generalizing s with
  | scan => simp [Floating.landed_self]
  | valued _ _ added ih =>
      cases added
      rw [ids_unary] at ha
      cases hp with
      | select _ hq _ =>
          have hi := ih hq ha.input hc
          rw [Plan.rows, Plan.rows, List.filter_comm]
          exact hi.filter _
  | kept input found added ih =>
      cases added
      rw [ids_unary] at ha
      obtain ⟨rfl, _⟩ := Floating.back_of_some (input.sublist ha.add) ha.not_mem found
      cases hp with
      | select _ hq he =>
          have hi := ih hq ha.add (hc.select (hq.covered_of_select he))
          rw [Floating.landed_kept ha.not_mem] at hi
          rw [Plan.rows, Plan.rows, List.filter_comm]
          exact hi.filter _
  | gone input gone ih =>
      rw [ids_unary] at ha
      have hf := Floating.back_of_none (input.sublist ha.add) ha.not_mem gone
      cases hp with
      | select _ hq he =>
          have hi := ih hq ha.add (hc.select (hq.covered_of_select he))
          rw [Floating.landed_gone ha.not_mem hf] at hi
          refine hi.trans (List.Perm.of_eq ?_)
          rw [Plan.rows, List.filter_filter]
          refine List.filter_congr fun row _ => ?_
          simp [or_imp, forall_and]
  | project _ added ih =>
      cases added
      rw [ids_unary] at ha
      cases hp with
      | project _ hq _ =>
          have hi := ih hq ha.input hc.project
          rw [Plan.rows, Plan.rows, List.filter_map]
          refine (hi.trans (List.Perm.of_eq (List.filter_congr fun row _ => ?_))).map _
          refine decide_eq_decide.mpr (forall₂_congr fun predicate hm => ?_)
          refine (Row.satisfies_restrict fun c hd => ?_).symm
          have hs := hc predicate (Floating.landed_subset hm) hd
          exact of_decide_eq_true (List.mem_filter.mp hs).2
  | unlinked _ _ _ left right added ihl ihr | join left right added ihl ihr =>
      cases added
      rw [ids_binary] at ha
      obtain ⟨_, ⟨_, hl⟩, ⟨_, hr⟩⟩ := hp.binary
      have hil := rows_of_landed_nil (ihl hl ha.inputs.1 .nil)
      have hir := rows_of_landed_nil (ihr hr ha.inputs.2 .nil)
      simp only [Floating.landed_self, List.not_mem_nil, false_imp_iff, implies_true, decide_true,
        List.filter_true]
      rw [rows_binary rfl, rows_binary rfl]
      exact (pairs_perm hil hir).filter _
  | @linked _ _ _ _ _ _ _ _ _ _ _ _ u f _ _ x hl hr chosen left right _ added ihl ihr =>
      cases added
      rw [ids_binary] at ha
      have hil := rows_of_landed_nil (ihl hl ha.inputs.1 .nil)
      have hir := rows_of_landed_nil (ihr hr ha.inputs.2 .nil)
      obtain ⟨g, removed, hperm⟩ := Floating.perm_of_mem (mem_of_choice chosen).1 ha.of_append_left
      rw [removed, Option.getD_some, Floating.landed_removed ha.of_append_left hperm,
        Plan.rows, Plan.rows]
      simp only [satisfies_turned, List.mem_singleton, forall_eq]
      exact (pairs_perm hil hir).filter _

end Fused

theorem fused_of_returns {p : Plan} {f : Floating} {x : Plan × Floating} {s t : Progress}
    {e : Statistics} (h : Returns (fuse p f) s x t) (hp : p.Estimated e) :
    Fused s.issued p f t.issued x.1 x.2 := by
  fun_induction fuse p f generalizing s t x e with
  | case1 | case2 | case9 => exact (returns_throw.mp h).elim
  | case3 predicate q qs i _ f value ih =>
      cases hp with
      | select _ hq _ =>
          obtain ⟨⟨q', g⟩, u, fused, h⟩ := returns_bind.mp h
          have input := ih fused hq
          obtain ⟨p, v, made, h⟩ := returns_bind.mp h
          obtain ⟨rfl, rfl⟩ := returns_pure.mp h
          obtain ⟨added, rfl⟩ := returns_addNode.mp made
          exact .valued value input added
  | case4 predicate q qs i _ f _ ih =>
      cases hp with
      | select _ hq _ =>
          obtain ⟨⟨q', f'⟩, u, fused, h⟩ := returns_bind.mp h
          have input := ih fused hq
          dsimp only at h
          split at h
          · rename_i g found
            obtain ⟨p, v, made, h⟩ := returns_bind.mp h
            obtain ⟨rfl, rfl⟩ := returns_pure.mp h
            obtain ⟨added, rfl⟩ := returns_addNode.mp made
            exact .kept input found added
          · rename_i gone
            obtain ⟨rfl, rfl⟩ := returns_pure.mp h
            exact .gone input gone
  | case5 cs q qs i _ f ih =>
      cases hp with
      | project _ hq _ =>
          obtain ⟨⟨q', g⟩, u, fused, h⟩ := returns_bind.mp h
          have input := ih fused hq
          obtain ⟨p, v, made, h⟩ := returns_bind.mp h
          obtain ⟨rfl, rfl⟩ := returns_pure.mp h
          obtain ⟨added, rfl⟩ := returns_addNode.mp made
          exact .project input added
  | case6 | case7 | case10 => cases hp
  | case8 l r qs i _ f ihl ihr =>
      obtain ⟨rfl, ⟨a, hl⟩, ⟨b, hr⟩⟩ := hp.binary
      obtain rfl := hp.estimate_eq
      obtain ⟨o, u, picked, h₁⟩ := returns_bind.mp h
      obtain ⟨hu, rfl⟩ := returns_pick hp hl hr picked
      obtain ⟨⟨l', g⟩, v, onLeft, h₂⟩ := returns_bind.mp h₁
      obtain ⟨⟨r', k⟩, w, onRight, h₃⟩ := returns_bind.mp h₂
      have left := ihl onLeft hl
      have right := ihr onRight hr
      rw [hu] at left
      cases hc : choice e a b f with
      | none =>
          rw [hc] at h₃
          obtain ⟨p, y, made, h₄⟩ := returns_bind.mp h₃
          obtain ⟨rfl, rfl⟩ := returns_pure.mp h₄
          obtain ⟨added, rfl⟩ := returns_addNode.mp made
          exact .unlinked hl hr (choice_eq_none.mp hc) left right added
      | some x =>
          rw [hc] at h₃
          obtain ⟨p, y, made, h₄⟩ := returns_bind.mp h₃
          obtain ⟨rfl, rfl⟩ := returns_pure.mp h₄
          obtain ⟨d, hd⟩ := left.known hl
          obtain ⟨added, hy⟩ := returns_joined hd.output_eq made
          rw [hy]
          exact .linked hl hr hc left right hd.output_eq added
  | case11 predicate l r qs i _ f ihl ihr =>
      obtain ⟨rfl, ⟨_, hl⟩, ⟨_, hr⟩⟩ := hp.binary
      obtain ⟨⟨l', g⟩, v, onLeft, h₂⟩ := returns_bind.mp h
      obtain ⟨⟨r', k⟩, w, onRight, h₃⟩ := returns_bind.mp h₂
      obtain ⟨p, y, made, h₄⟩ := returns_bind.mp h₃
      obtain ⟨rfl, rfl⟩ := returns_pure.mp h₄
      obtain ⟨added, rfl⟩ := returns_addNode.mp made
      exact .join (ihl onLeft hl) (ihr onRight hr) added
  | case12 =>
      obtain ⟨rfl, rfl⟩ := returns_pure.mp h
      exact .scan

end QueryPlan.FuseJoins
