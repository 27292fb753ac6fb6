import QueryPlan.Proofs.PushSelects.Course

/-!
Pushing selections down where no two are confused. What goes on floating is then what no
node takes. As long as a predicate's columns stay in sight on the way up from where it is
taken, the rows are those that satisfy it.
-/

namespace QueryPlan.PushSelects

open Planner Plan

/-- Of what floats above a plan, the plan hides nothing that it scans. -/
def Afloat (p : Plan) (f : Floating) : Prop :=
  ∀ predicate ∈ f.predicates, p.Shows predicate.columns

namespace Afloat

variable {q l r : Plan} {f g : Floating} {i : NodeId} {e : Option Statistics} {op : Operator}

theorem nil : Afloat q [] :=
  List.forall_mem_nil _

theorem mono (h : Afloat q f) (hg : g.Sublist f) : Afloat q g :=
  fun predicate hm => h predicate ((hg.map _).subset hm)

theorem select {predicate : Predicate} {j : NodeId}
    (h : Afloat ⟨.select predicate, [q], i, e⟩ f) (hc : predicate.columns ⊆ q.columns) :
    Afloat q (f.add j predicate) := by
  intro p hp
  rw [Floating.predicates_add, List.mem_append, List.mem_singleton] at hp
  obtain hp | rfl := hp
  · exact (h p hp).select
  · exact shows_of_subset hc

theorem project {cs : List Column} (h : Afloat ⟨.project cs, [q], i, e⟩ f) : Afloat q f :=
  fun p hp => (h p hp).project

theorem binary {s t : Statistics} (h : Afloat ⟨op, [l, r], i, e⟩ f) (ho : op.arity = 2)
    (hl : l.Estimated s) (hr : r.Estimated t) (hd : l.leafColumns.Disjoint r.leafColumns) :
    Afloat l f ∧ Afloat r f := by
  refine ⟨fun p hp => ?_, fun p hp => ?_⟩
  · exact ((h p hp).binary ho hl.columns_subset hr.columns_subset hd).1
  · exact ((h p hp).binary ho hl.columns_subset hr.columns_subset hd).2

end Afloat

theorem columns_subset_of_scanTakes {r : BaseRelation} {predicate : Predicate}
    (h : scanTakes r predicate) : predicate.columns ⊆ r.statistics.columns := by
  cases predicate with
  | equalsValue c v =>
      intro d hd
      rw [List.mem_singleton.mp hd]
      exact of_decide_eq_true (Bool.and_eq_true_iff.mp h).2
  | equalsColumn _ _ => simp [scanTakes, Predicate.isEqualsValue] at h

/-- Pushing down where the plan is estimated and no two selections are confused: what is
kept above a plan, what lands in it, and what goes on floating. -/
inductive Sunk : Plan → Floating → Plan → Floating → Prop
  | scan {n m : Nat} {r : BaseRelation} {i : NodeId} {e : Option Statistics} {f : Floating}
      {q : Plan} (stacked : Stacked n ⟨.scan r, [], i, e⟩ (f.taken (scanTakes r)) m q) :
      Sunk ⟨.scan r, [], i, e⟩ f q (f.untaken (scanTakes r))
  | kept {predicate : Predicate} {q q' : Plan} {i j : NodeId} {e e' : Option Statistics}
      {f g : Floating} (covered : predicate.columns ⊆ q.columns) (own : i ∉ f.origins)
      (rest : g.Sublist f) (input : Sunk q (f.add i predicate) q' (g.add i predicate)) :
      Sunk ⟨.select predicate, [q], i, e⟩ f ⟨.select predicate, [q'], j, e'⟩ g
  | landed {predicate : Predicate} {q q' : Plan} {i : NodeId} {e : Option Statistics}
      {f g : Floating} (covered : predicate.columns ⊆ q.columns) (own : i ∉ f.origins)
      (rest : g.Sublist f) (input : Sunk q (f.add i predicate) q' g) :
      Sunk ⟨.select predicate, [q], i, e⟩ f q' g
  | project {cs : List Column} {q q' : Plan} {i j : NodeId} {e e' : Option Statistics}
      {f g : Floating} (input : Sunk q f q' g) :
      Sunk ⟨.project cs, [q], i, e⟩ f ⟨.project cs, [q'], j, e'⟩ g
  | pair {n m : Nat} {op : Operator} {l r l' r' p : Plan} {s t u : Statistics} {i j : NodeId}
      {e e' : Option Statistics} {f g h : Floating} (binary : op.arity = 2)
      (onLeft : l.Estimated s) (onRight : r.Estimated t)
      (restLeft : g.Sublist f) (left : Sunk l f l' g)
      (restRight : h.Sublist g) (right : Sunk r g r' h)
      (output : u.columns = l.columns ++ r.columns)
      (stacked : Stacked n ⟨op, [l', r'], j, e'⟩
        (h.taken fun predicate => predicate.CoveredBy u) m p) :
      Sunk ⟨op, [l, r], i, e⟩ f p (h.untaken fun predicate => predicate.CoveredBy u)

theorem Pushed.sunk_of_inner {n m : Nat} {p q : Plan} {f g : Floating} {s : Statistics}
    (h : Pushed n p f m q g) (hp : p.Estimated s) (ha : f.Apart p.innerIds) : Sunk p f q g := by
  induction h generalizing s with
  | scan stacked =>
      cases hp with
      | scan _ _ => exact .scan stacked
  | kept input found added ih =>
      cases added
      cases hp with
      | select _ hq he =>
          rw [innerIds_unary] at ha
          have hc := hq.covered_of_select he
          obtain ⟨a, rfl, hf, hr⟩ | ⟨_, hr⟩ :=
            Floating.sublist_add (input.sublist_of_inner hq ha.add) ha.not_mem
          · rw [found, Option.some.injEq] at hr
            subst hr
            exact .kept hc ha.not_mem hf (ih hq ha.add)
          · rw [found] at hr
            cases hr
  | landed input gone ih =>
      cases hp with
      | select _ hq he =>
          rw [innerIds_unary] at ha
          have hc := hq.covered_of_select he
          obtain ⟨a, _, hf, hr⟩ | ⟨hf, _⟩ :=
            Floating.sublist_add (input.sublist_of_inner hq ha.add) ha.not_mem
          · rw [gone] at hr
            cases hr
          · exact .landed hc ha.not_mem hf (ih hq ha.add)
  | project input added ih =>
      cases added
      cases hp with
      | project _ hq _ =>
          exact .project (ih hq (ha.mono (List.Sublist.refl _) (by simp)))
  | pair binary left right added output stacked ihl ihr =>
      obtain ⟨rfl, ⟨_, hl⟩, ⟨_, hr⟩⟩ := hp.binary
      rw [innerIds_binary] at ha
      have hgl := left.sublist_of_inner hl ha.left
      have har := ha.right.mono hgl (.refl _)
      have ho := Pushed.columns_pair binary left right hl hr added output
      cases added
      exact .pair binary hl hr hgl (ihl hl ha.left) (right.sublist_of_inner hr har) (ihr hr har) ho
        stacked

theorem Pushed.sunk {n m : Nat} {p q : Plan} {f g : Floating} {s : Statistics}
    (h : Pushed n p f m q g) (hp : p.Estimated s) (ha : f.Apart p.ids) : Sunk p f q g :=
  h.sunk_of_inner hp ha.inner

namespace Sunk

variable {p q : Plan} {f g : Floating} {s : Statistics} {db : Database}

theorem sublist (h : Sunk p f q g) : g.Sublist f := by
  induction h with
  | scan _ => exact Floating.untaken_sublist _ _
  | kept _ _ rest _ _ | landed _ _ rest _ _ => exact rest
  | project _ ih => exact ih
  | pair _ _ _ restLeft _ restRight _ _ _ _ _ =>
      exact (Floating.untaken_sublist _ _).trans (restRight.trans restLeft)

theorem scans (h : Sunk p f q g) : q.scans = p.scans := by
  induction h with
  | scan stacked => exact stacked.scans
  | kept _ _ _ _ ih | project _ ih => simp [ih]
  | landed _ _ _ _ ih => simpa [Operator.relation?] using ih
  | pair _ _ _ _ _ _ _ _ stacked ihl ihr => rw [stacked.scans, scans_binary, scans_binary, ihl, ihr]

theorem columns (h : Sunk p f q g) : q.columns = p.columns := by
  induction h with
  | scan stacked => exact stacked.columns
  | kept _ _ _ _ ih | landed _ _ _ _ ih => simpa [Plan.columns] using ih
  | project _ ih => simp only [Plan.columns, ih]
  | pair binary _ _ _ _ _ _ _ stacked ihl ihr =>
      rw [stacked.columns, columns_binary binary, columns_binary binary, ihl, ihr]

/-- What goes on floating is what no node takes, in the order in which it came. -/
theorem rest (h : Sunk p f q g) : g = f.untaken (absorbs p) := by
  induction h with
  | scan _ => rw [absorbs_scan]
  | kept _ own _ _ ih =>
      rw [absorbs_unary rfl]
      exact (Floating.untaken_of_kept own ih).2
  | landed _ own rest _ ih =>
      rw [absorbs_unary rfl]
      exact (Floating.untaken_of_gone own rest ih).2
  | project _ ih => rw [absorbs_unary rfl, ih]
  | pair binary _ _ _ _ _ _ output _ ihl ihr =>
      rw [covered_eq_takes binary output, ihr, ihl, Floating.untaken_untaken,
        Floating.untaken_untaken, absorbs_binary]

/-- A selection stays where it was when nothing below takes its predicate. -/
theorem free {predicate : Predicate} {i : NodeId} (own : i ∉ f.origins)
    (input : Sunk p (f.add i predicate) q (g.add i predicate)) : ¬ absorbs p predicate :=
  (Floating.untaken_of_kept own input.rest).1

theorem taken {predicate : Predicate} {i : NodeId} (own : i ∉ f.origins) (rest : g.Sublist f)
    (input : Sunk p (f.add i predicate) q g) : absorbs p predicate :=
  (Floating.untaken_of_gone own rest input.rest).1

end Sunk

/-- Once taken, the predicate keeps its columns in sight on the whole way up. -/
def Clear (p : Plan) (predicate : Predicate) : Prop :=
  ∀ x ∈ course predicate p, absorbs x predicate → predicate.columns ⊆ x.columns

instance (p : Plan) (predicate : Predicate) : Decidable (Clear p predicate) :=
  inferInstanceAs (Decidable (∀ x ∈ course predicate p, _ → _))

/-- No selection has a predicate taken where its columns are not the ones in sight above. -/
def AllClear (p : Plan) : Prop :=
  p.EachSelection fun _ predicate q => Clear q predicate

instance (p : Plan) : Decidable (AllClear p) :=
  inferInstanceAs (Decidable (p.EachSelection _))

namespace Clear

variable {p q l r : Plan} {i : NodeId} {e : Option Statistics} {op : Operator}
  {predicate : Predicate}

theorem top (h : Clear p predicate) (ha : absorbs p predicate) : predicate.columns ⊆ p.columns :=
  h p mem_course_self ha

theorem unary_iff : Clear ⟨op, [q], i, e⟩ predicate ↔
    (absorbs ⟨op, [q], i, e⟩ predicate → predicate.columns ⊆ (Plan.mk op [q] i e).columns) ∧
      Clear q predicate := by
  rw [Clear, course, List.forall_mem_cons]
  rfl

theorem binary_iff : Clear ⟨op, [l, r], i, e⟩ predicate ↔
    (absorbs ⟨op, [l, r], i, e⟩ predicate →
        predicate.columns ⊆ (Plan.mk op [l, r] i e).columns) ∧
      Clear l predicate ∧ (¬ absorbs l predicate → Clear r predicate) := by
  rw [Clear, course, List.forall_mem_cons, List.forall_mem_append]
  by_cases ha : absorbs l predicate <;> simp [ha, Clear]

theorem unary (h : Clear ⟨op, [q], i, e⟩ predicate) : Clear q predicate :=
  (unary_iff.mp h).2

theorem left (h : Clear ⟨op, [l, r], i, e⟩ predicate) : Clear l predicate :=
  (binary_iff.mp h).2.1

theorem right (h : Clear ⟨op, [l, r], i, e⟩ predicate) (hn : ¬ absorbs l predicate) :
    Clear r predicate :=
  (binary_iff.mp h).2.2 hn

theorem add {f : Floating} {j : NodeId}
    (h : ∀ x ∈ f.predicates, Clear ⟨op, [q], i, e⟩ x) (hq : Clear q predicate) :
    ∀ x ∈ (f.add j predicate).predicates, Clear q x := by
  intro x hx
  rw [Floating.predicates_add, List.mem_append, List.mem_singleton] at hx
  obtain hx | rfl := hx
  · exact (h x hx).unary
  · exact hq

/-- What the left input lets through is in sight of the right one's nodes. -/
theorem rest {f : Floating} (h : ∀ predicate ∈ f.predicates, Clear ⟨op, [l, r], i, e⟩ predicate) :
    ∀ predicate ∈ (f.untaken (absorbs l)).predicates, Clear r predicate := by
  intro x hx
  obtain ⟨hm, hn⟩ := Floating.mem_predicates_untaken.mp hx
  exact (h x hm).right hn

end Clear

section Distinct

variable {p x : Plan} {s : Statistics} {predicate : Predicate}

theorem columns_subset_of_takes (h : takes x predicate) : predicate.columns ⊆ x.columns := by
  obtain ⟨op, ps, i, e⟩ := x
  cases op with
  | scan r => exact columns_subset_of_scanTakes h
  | product | join _ => exact of_decide_eq_true h
  | select _ | project _ => cases h

theorem leafColumns_subset_of_absorbs (hp : p.Estimated s) (h : absorbs p predicate) :
    predicate.columns ⊆ p.leafColumns := by
  obtain ⟨x, hx, ht⟩ := List.any_eq_true.mp h
  obtain ⟨⟨_, hxe⟩, hs⟩ := hp.of_mem hx
  have hl : x.leafColumns ⊆ p.leafColumns := (hs.flatMap _).subset
  exact fun c hc => hl (hxe.columns_subset (columns_subset_of_takes ht hc))

/-- Where no two relations share a column, a column shown above is shown on the whole way. -/
theorem clear_of_shows (hp : p.Estimated s) (hd : p.DistinctColumns)
    (hs : p.Shows predicate.columns) : Clear p predicate := by
  intro x hx ha c hc
  have hm := course_subset hx
  obtain ⟨⟨_, hxe⟩, _⟩ := hp.of_mem hm
  exact hs.of_mem hp hd hm c hc (leafColumns_subset_of_absorbs hxe ha hc)

theorem allClear_of_distinct (hp : p.Estimated s) (hd : p.DistinctColumns) : AllClear p := by
  induction hp with
  | scan _ _ => exact eachSelection_scan
  | select i hq he ih =>
      have hs := shows_of_subset (hq.covered_of_select he)
      exact eachSelection_select.mpr ⟨clear_of_shows hq hd.unary hs, ih hd.unary⟩
  | project i _ _ ih => exact eachSelection_project.mpr (ih hd.unary)
  | product i _ _ ihl ihr | join i _ _ _ ihl ihr =>
      exact eachSelection_binary.mpr ⟨ihl hd.binary.1, ihr hd.binary.2.1⟩

end Distinct

namespace Sunk

variable {p q l r : Plan} {f g : Floating} {s : Statistics} {db : Database}

theorem mem_of_not_covered {predicate : Predicate} (h : Sunk p f q g) (hp : p.Estimated s)
    (hd : p.DistinctColumns) (hf : Afloat p f) (hm : predicate ∈ f.predicates)
    (hc : ¬ predicate.columns ⊆ p.columns) : predicate ∈ g.predicates := by
  rw [h.rest, Floating.mem_predicates_untaken]
  exact ⟨hm, fun ha => hc ((clear_of_shows hp hd (hf predicate hm)).top ha)⟩

theorem pairs_absorbed {ps qs : List Predicate} (hl : l.Estimated s) (hfl : l.Fitted db)
    (hd : l.columns.Disjoint r.columns) (hps : ∀ predicate ∈ ps, predicate.columns ⊆ l.columns)
    (hqs : ∀ predicate ∈ qs, predicate.columns ⊆ r.columns) :
    pairs ((l.rows db).filter fun row => ∀ predicate ∈ ps, row.Satisfies predicate)
        ((r.rows db).filter fun row => ∀ predicate ∈ qs, row.Satisfies predicate) =
      (pairs (l.rows db) (r.rows db)).filter fun row =>
        (∀ predicate ∈ ps, row.Satisfies predicate) ∧
          ∀ predicate ∈ qs, row.Satisfies predicate := by
  have hfill := hl.fills hfl
  have hdis : ∀ predicate ∈ qs, predicate.columns.Disjoint l.columns :=
    fun predicate hm c hc hca => hd hca (hqs predicate hm hc)
  rw [pairs_satisfying_right (fun a ha => hfill a (List.mem_filter.mp ha).1) hdis,
    pairs_satisfying_left hfill hps, List.filter_filter]
  refine List.filter_congr fun row _ => ?_
  simp [Bool.and_comm]

theorem taken_pair_perm {op : Operator} {i : NodeId} {e : Option Statistics} :
    (f.taken (absorbs ⟨op, [l, r], i, e⟩)).Perm
      (f.taken (absorbs l) ++ (f.untaken (absorbs l)).taken (absorbs r) ++
        ((f.untaken (absorbs l)).untaken (absorbs r)).taken (takes ⟨op, [l, r], i, e⟩)) := by
  rw [absorbs_binary, List.append_assoc]
  exact Floating.taken_or_perm.trans (Floating.taken_or_perm.append_left _)

/-- A plan pushed down returns the rows that satisfy what it absorbs. -/
theorem rows_perm (h : Sunk p f q g) (hp : p.Fitted db) (hn : p.DistinctOutputs)
    (hs : AllClear p) (hf : ∀ predicate ∈ f.predicates, Clear p predicate) :
    (q.rows db).Perm
      ((p.rows db).filter fun row =>
        ∀ predicate ∈ f.taken (absorbs p), row.Satisfies predicate) := by
  induction h with
  | scan stacked =>
      rw [stacked.rows, absorbs_scan]
  | @kept predicate _ _ _ _ _ _ f g covered own rest input ih =>
      obtain ⟨hc, hs⟩ := eachSelection_select.mp hs
      have hq := ih hp.unary hn.unary hs (Clear.add hf hc)
      rw [Floating.taken_add, if_neg (input.free own), List.append_nil] at hq
      rw [Plan.rows, Plan.rows, List.filter_comm, absorbs_unary rfl]
      exact hq.filter _
  | @landed predicate _ _ _ _ f g covered own rest input ih =>
      obtain ⟨hc, hs⟩ := eachSelection_select.mp hs
      have hq := ih hp.unary hn.unary hs (Clear.add hf hc)
      rw [Floating.taken_add, if_pos (input.taken own rest)] at hq
      refine hq.trans (List.Perm.of_eq ?_)
      rw [Plan.rows, List.filter_filter, absorbs_unary rfl]
      refine List.filter_congr fun row _ => ?_
      simp [or_imp, forall_and]
  | project input ih =>
      -- what has been taken below sees only columns that the projection keeps
      have hq := ih hp.unary hn.unary (eachSelection_project.mp hs) fun x hx => (hf x hx).unary
      rw [Plan.rows, Plan.rows, List.filter_map, absorbs_unary rfl]
      refine (hq.trans (List.Perm.of_eq (List.filter_congr fun row _ => ?_))).map _
      refine decide_eq_decide.mpr (forall₂_congr fun predicate hm => ?_)
      refine (Row.satisfies_restrict fun c hd => ?_).symm
      obtain ⟨hm, ha⟩ := Floating.mem_taken.mp hm
      have hc := (hf predicate hm).top (by rwa [absorbs_unary rfl]) hd
      exact of_decide_eq_true (List.mem_filter.mp hc).2
  | @pair _ _ op l r l' r' _ _ _ u i _ e _ f g h binary onLeft _ _ left _ right output stacked
      ihl ihr =>
      obtain ⟨hsl, hsr⟩ := eachSelection_binary.mp hs
      have hfl : ∀ predicate ∈ f.predicates, Clear l predicate := fun x hx => (hf x hx).left
      have hfr : ∀ predicate ∈ g.predicates, Clear r predicate := left.rest ▸ Clear.rest hf
      have hlr := pairs_perm (ihl hp.binary.1 hn.left hsl hfl) (ihr hp.binary.2 hn.right hsr hfr)
      -- both inputs may be filtered after the pairing, since they share no column
      rw [pairs_absorbed onLeft hp.binary.1 (hn.disjoint binary)
        (fun x hx => (hfl x (Floating.mem_taken.mp hx).1).top (Floating.mem_taken.mp hx).2)
        (fun x hx => (hfr x (Floating.mem_taken.mp hx).1).top (Floating.mem_taken.mp hx).2)] at hlr
      rw [stacked.rows, rows_binary binary, rows_binary binary]
      refine ((hlr.filter _).filter _).trans (List.Perm.of_eq ?_)
      rw [List.filter_filter, List.filter_filter, List.filter_filter]
      refine List.filter_congr fun row _ => ?_
      have htest := covered_eq_takes (i := i) (e := e) binary output
      simp only [taken_pair_perm.mem_iff, List.mem_append, htest, ← left.rest, ← right.rest,
        or_imp, forall_and, ← Bool.decide_and]
      apply decide_eq_decide.mpr
      tauto

end Sunk

end QueryPlan.PushSelects
