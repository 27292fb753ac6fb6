import QueryPlan.Proofs.Phases

/-!
Equations that link the two sides of a node. Where selections have been pushed down,
an equation stands directly above the product whose two sides it spans; fusing joins
finds it there, and projecting early keeps the join that comes of it.
-/

namespace QueryPlan

open Planner Plan

namespace Predicate

/-- The predicate equates one of the first columns with one of the second. -/
def Spans (p : Predicate) (xs ys : List Column) : Prop :=
  match p with
  | equalsValue _ _ => False
  | equalsColumn l r => (l ∈ xs ∧ r ∈ ys) ∨ (r ∈ xs ∧ l ∈ ys)

instance (p : Predicate) (xs ys : List Column) : Decidable (p.Spans xs ys) :=
  match p with
  | equalsValue _ _ => inferInstanceAs (Decidable False)
  | equalsColumn l r => inferInstanceAs (Decidable ((l ∈ xs ∧ r ∈ ys) ∨ (r ∈ xs ∧ l ∈ ys)))

variable {p : Predicate} {xs ys : List Column}

theorem links_iff {s t : Statistics} : p.Links s t ↔ p.Spans s.columns t.columns := by
  cases p <;> rfl

theorem Spans.isEqualsValue_eq (h : p.Spans xs ys) : p.isEqualsValue = false := by
  cases p with
  | equalsValue c v => exact h.elim
  | equalsColumn l r => rfl

theorem Spans.columns_subset (h : p.Spans xs ys) : p.columns ⊆ xs ++ ys := by
  cases p with
  | equalsValue c v => exact h.elim
  | equalsColumn l r =>
      simp only [columns, List.cons_subset, List.mem_append, List.nil_subset, and_true]
      obtain h | h := h
      · exact ⟨.inl h.1, .inr h.2⟩
      · exact ⟨.inr h.2, .inl h.1⟩

theorem Spans.not_subset (h : p.Spans xs ys) (hd : xs.Disjoint ys) :
    ¬ p.columns ⊆ xs ∧ ¬ p.columns ⊆ ys := by
  cases p with
  | equalsValue c v => exact h.elim
  | equalsColumn l r =>
      simp only [columns, List.cons_subset, List.nil_subset, and_true, not_and]
      obtain h | h := h
      · exact ⟨fun _ hr => hd hr h.2, fun hl => (hd h.1 hl).elim⟩
      · exact ⟨fun hl => (hd hl h.2).elim, fun _ hr => hd h.1 hr⟩

theorem not_subset_of_disjoint (hd : xs.Disjoint ys) (h : p.columns ⊆ xs) : ¬ p.columns ⊆ ys := by
  intro h'
  have hl : p.left ∈ p.columns := by cases p <;> simp [columns, left]
  exact hd (h hl) (h' hl)

/-- The left column is put on the side that has it. -/
def facing (p : Predicate) (xs : List Column) : Predicate :=
  if p.left ∈ xs then p else p.swapped

/-- An equation that spans two sides faces them with a column of each. -/
theorem Spans.facing_eq (h : p.Spans xs ys) (hd : xs.Disjoint ys) :
    ∃ a ∈ xs, ∃ b ∈ ys, p.facing xs = .equalsColumn a b ∧
      (p = .equalsColumn a b ∨ p = .equalsColumn b a) := by
  cases p with
  | equalsValue c v => exact h.elim
  | equalsColumn l r =>
      obtain ⟨hl, hr⟩ | ⟨hr, hl⟩ := h
      · exact ⟨l, hl, r, hr, if_pos hl, .inl rfl⟩
      · exact ⟨r, hr, l, hl, if_neg fun hm => hd hm hl, .inr rfl⟩

end Predicate

/-- Columns of different relations come together at some product or join. -/
theorem Plan.Estimated.exists_spanned {p : Plan} {s : Statistics} {a b : Column}
    (h : p.Estimated s) (ha : a ∈ p.leafColumns) (hb : b ∈ p.leafColumns)
    (hn : ∀ r ∈ p.scans, a ∈ r.statistics → b ∉ r.statistics) :
    ∃ x ∈ p.preorder, ∃ l r, x.inputs = [l, r] ∧
      (Predicate.equalsColumn a b).Spans l.leafColumns r.leafColumns := by
  induction h with
  | scan r i =>
      rw [leafColumns_leaf] at ha hb
      exact absurd hb (hn r (by simp [Operator.relation?]) ha)
  | select i _ _ ih | project i _ _ ih =>
      rw [leafColumns_unary, ownColumns, List.nil_append] at ha hb
      rw [scans_unary, Operator.relation?, Option.toList_none, List.nil_append] at hn
      obtain ⟨x, hx, hspans⟩ := ih ha hb hn
      exact ⟨x, mem_preorder_of_input (List.mem_singleton_self _) hx, hspans⟩
  | @product l r _ _ i _ _ ihl ihr | @join l r _ _ _ _ i _ _ _ ihl ihr =>
      rw [leafColumns_binary, ownColumns, List.nil_append, List.mem_append] at ha hb
      rw [scans_binary, Operator.relation?, Option.toList_none, List.nil_append,
        List.forall_mem_append] at hn
      obtain hal | har := ha
      · obtain hbl | hbr := hb
        · obtain ⟨x, hx, hspans⟩ := ihl hal hbl hn.1
          exact ⟨x, mem_preorder_of_input List.mem_cons_self hx, hspans⟩
        · exact ⟨_, mem_preorder_self _, l, r, rfl, .inl ⟨hal, hbr⟩⟩
      · obtain hbl | hbr := hb
        · exact ⟨_, mem_preorder_self _, l, r, rfl, .inr ⟨hbl, har⟩⟩
        · obtain ⟨x, hx, hspans⟩ := ihr har hbr hn.2
          exact ⟨x, mem_preorder_of_input (by simp) hx, hspans⟩

/-- Below selections on the predicates above, every product has directly above it those of
the predicates that span its two sides. -/
inductive Gathered (predicates : List Predicate) : List Predicate → Plan → Prop
  | scan {above : List Predicate} {r : BaseRelation} {i : NodeId} {e : Option Statistics} :
      Gathered predicates above ⟨.scan r, [], i, e⟩
  | select {above : List Predicate} {predicate : Predicate} {q : Plan} {i : NodeId}
      {e : Option Statistics} (input : Gathered predicates (predicate :: above) q) :
      Gathered predicates above ⟨.select predicate, [q], i, e⟩
  | project {above : List Predicate} {cs : List Column} {q : Plan} {i : NodeId}
      {e : Option Statistics} (input : Gathered predicates above q) :
      Gathered predicates above ⟨.project cs, [q], i, e⟩
  | product {above : List Predicate} {l r : Plan} {i : NodeId} {e : Option Statistics}
      (caught : ∀ predicate ∈ predicates, predicate.Spans l.leafColumns r.leafColumns →
        predicate ∈ above)
      (left : Gathered predicates [] l) (right : Gathered predicates [] r) :
      Gathered predicates above ⟨.product, [l, r], i, e⟩

theorem Gathered.stacked {n m : Nat} {p q : Plan} {predicates above ps : List Predicate}
    (h : Stacked n p ps m q)
    (hp : ∀ above' : List Predicate, ps ⊆ above' → Gathered predicates above' p) :
    Gathered predicates above q := by
  induction h generalizing above with
  | nil => exact hp above (List.nil_subset _)
  | cons added _ ih =>
      cases added
      refine ih fun above' ha => .select (hp _ ?_)
      exact List.cons_subset_cons _ ha

namespace PushSelects

variable {p q l r : Plan} {f g h : Floating} {s t : Statistics} {predicate : Predicate}

/-- Of the predicates, those that fit a plan float above it or stand in it. -/
def Held (predicates : List Predicate) (p : Plan) (f : Floating) : Prop :=
  ∀ predicate ∈ predicates, predicate.columns ⊆ p.leafColumns →
    predicate ∈ f.predicates ∨ predicate ∈ p.predicates

namespace Held

variable {predicates : List Predicate} {op : Operator} {i j : NodeId} {e : Option Statistics}

theorem select (hp : Held predicates ⟨.select predicate, [q], i, e⟩ f) :
    Held predicates q (f.add j predicate) := by
  intro x hm hc
  have hx := hp x hm (by simpa [ownColumns] using hc)
  simp only [Floating.predicates_add, predicates_unary, Operator.predicate?, Option.toList_some,
    List.mem_append, List.mem_singleton] at hx ⊢
  tauto

theorem product (hp : Held predicates ⟨.product, [l, r], i, e⟩ f) (hl : l.Estimated s)
    (hr : r.Estimated t) (hd : l.leafColumns.Disjoint r.leafColumns) :
    Held predicates l f ∧ Held predicates r f ∧
      ∀ predicate ∈ predicates, predicate.Spans l.leafColumns r.leafColumns →
        predicate ∈ f.predicates := by
  have hwhere : ∀ x ∈ predicates, x.columns ⊆ l.leafColumns ++ r.leafColumns →
      x ∈ f.predicates ∨ x.columns ⊆ l.leafColumns ∧ x ∈ l.predicates ∨
        x.columns ⊆ r.leafColumns ∧ x ∈ r.predicates := by
    intro x hm hc
    have hx := hp x hm (by simpa [ownColumns] using hc)
    simp only [predicates_binary, Operator.predicate?, Option.toList_none, List.nil_append,
      List.mem_append] at hx
    have hxl := hl.predicates_covered x
    have hxr := hr.predicates_covered x
    tauto
  refine ⟨fun x hm hc => ?_, fun x hm hc => ?_, fun x hm hspan => ?_⟩
  · have hx := hwhere x hm (List.subset_append_of_subset_left _ hc)
    have hn := Predicate.not_subset_of_disjoint hd hc
    tauto
  · have hx := hwhere x hm (List.subset_append_of_subset_right _ hc)
    have hn := Predicate.not_subset_of_disjoint hd.symm hc
    tauto
  · have hx := hwhere x hm hspan.columns_subset
    have hn := hspan.not_subset hd
    tauto

end Held

/-- Of the predicates afloat above a plan or standing in it, each comes to stand above the
lowest product that spans it. -/
theorem Sunk.gathered {predicates : List Predicate} (hs : Sunk p f q g) (hd : p.DistinctColumns)
    (hf : Afloat p f) (hfree : p.ProjectFree) (hj : p.JoinFree) (hp : Held predicates p f)
    (above : List Predicate) : Gathered predicates above q := by
  induction hs generalizing above with
  | scan stacked => exact .stacked stacked fun _ _ => .scan
  | kept covered _ _ _ ih =>
      exact .select (ih hd.unary (hf.select covered) hfree.unary hj.unary hp.select _)
  | landed covered _ _ _ ih =>
      exact ih hd.unary (hf.select covered) hfree.unary hj.unary hp.select above
  | project _ _ =>
      exact absurd hfree not_projectFree_project
  | @pair _ _ op l r l' r' p s t u i j e e' f g h binary onLeft onRight restLeft left restRight
      right output stacked ihl ihr =>
      obtain rfl : op = .product := by
        obtain ho | ⟨_, rfl⟩ := product_or_join binary
        · exact ho
        · cases hj _ (mem_preorder_self _)
      obtain ⟨hdl, hdr, hdis⟩ := hd.binary
      obtain ⟨hpl, hpr, hspans⟩ := hp.product onLeft onRight hdis
      have hfl := (hf.binary binary onLeft onRight hdis).1
      have hfr := (hf.binary binary onLeft onRight hdis).2.mono restLeft
      have hcl := onLeft.columns_eq_leafColumns hfree.binary.1
      have hcr := onRight.columns_eq_leafColumns hfree.binary.2
      have hslip (x : Predicate) (hm : x ∈ f.predicates) (hc : ¬ x.columns ⊆ l.leafColumns) :
          x ∈ g.predicates := left.mem_of_not_covered onLeft hdl hfl hm (hcl ▸ hc)
      have hprg : Held predicates r g := by
        intro x hm hc
        obtain hx | hx := hpr x hm hc
        · exact .inl (hslip x hx (Predicate.not_subset_of_disjoint hdis.symm hc))
        · exact .inr hx
      refine .stacked stacked fun above' ha => ?_
      refine .product (fun x hm hspan => ha ?_) (ihl hdl hfl hfree.binary.1 hj.binary.1 hpl [])
        (ihr hdr hfr hfree.binary.2 hj.binary.2 hprg [])
      rw [leafColumns_congr left.scans, leafColumns_congr right.scans] at hspan
      obtain ⟨hnl, hnr⟩ := hspan.not_subset hdis
      have hxg := hslip x (hspans x hm hspan) hnl
      have hxh := right.mem_of_not_covered onRight hdr hfr hxg (hcr ▸ hnr)
      refine Floating.mem_taken.mpr ⟨hxh, decide_eq_true fun c hc => ?_⟩
      rw [Statistics.mem_def, output, hcl, hcr]
      exact hspan.columns_subset hc

theorem gathered_of_run {x y : Progress} {o : Option (List Column)} (h : Returns (run p) x q y)
    (hp : p.Estimated s) (hi : p.ids.Nodup) (hr : Rooted o p) (hj : p.JoinFree)
    (hd : p.DistinctColumns) : Gathered p.predicates [] q := by
  have hs := (pushed_of_run h).sunk hp hi
  cases hr with
  | bare hf => exact hs.gathered hd .nil hf hj (fun _ hm _ => .inr hm) []
  | under hf =>
      cases hs with
      | project input =>
          refine .project (input.gathered hd.unary .nil hf hj.unary (fun x hm _ => .inr ?_) [])
          simpa [Operator.predicate?] using hm

end PushSelects

/-- An operator over two sides that an equation spans is a join on such an equation, each of
whose columns comes from its own side. -/
def Operator.Matched (predicates : List Predicate) (xs ys : List Column) (op : Operator) : Prop :=
  (∃ predicate ∈ predicates, predicate.Spans xs ys) →
    ∃ a ∈ xs, ∃ b ∈ ys, op = .join (.equalsColumn a b) ∧
      (.equalsColumn a b ∈ predicates ∨ .equalsColumn b a ∈ predicates)

def Plan.Matched (predicates : List Predicate) (p : Plan) : Prop :=
  ∀ x ∈ p.preorder, ∀ l r, x.inputs = [l, r] →
    x.operator.Matched predicates l.leafColumns r.leafColumns

section Matched

variable {predicates : List Predicate} {op : Operator} {q l r : Plan} {i : NodeId}
  {e : Option Statistics}

theorem matched_leaf : (Plan.mk op [] i e).Matched predicates := by
  intro x hx l r hi
  rw [List.mem_singleton.mp hx] at hi
  cases hi

theorem matched_unary : (Plan.mk op [q] i e).Matched predicates ↔ q.Matched predicates := by
  rw [Plan.Matched, preorder_unary, List.forall_mem_cons]
  exact and_iff_right fun _ _ hi => by cases hi

theorem matched_binary :
    (Plan.mk op [l, r] i e).Matched predicates ↔
      op.Matched predicates l.leafColumns r.leafColumns ∧ l.Matched predicates ∧
        r.Matched predicates := by
  rw [Plan.Matched, preorder_binary, List.forall_mem_cons, List.forall_mem_append]
  refine and_congr_left fun _ => ⟨fun h => h l r rfl, fun h l' r' hi => ?_⟩
  cases hi
  exact h

theorem matched_of_spans {xs ys : List Column} {predicate : Predicate}
    (hspan : predicate.Spans xs ys) (hd : xs.Disjoint ys) (hm : predicate ∈ predicates) :
    (Operator.join (predicate.facing xs)).Matched predicates xs ys := by
  intro _
  obtain ⟨a, ha, b, hb, hfacing, rfl | rfl⟩ := hspan.facing_eq hd
  · exact ⟨a, ha, b, hb, by rw [hfacing], .inl hm⟩
  · exact ⟨a, ha, b, hb, by rw [hfacing], .inr hm⟩

theorem Plan.Matched.congr {predicates' : List Predicate} (h : q.Matched predicates)
    (hp : ∀ predicate, predicate ∈ predicates' ↔ predicate ∈ predicates) :
    q.Matched predicates' := by
  simpa only [Plan.Matched, Operator.Matched, hp] using h

theorem Plan.Estimated.links_iff {predicate : Predicate} {s t : Statistics} (hl : l.Estimated s)
    (hr : r.Estimated t) (hfree : (Plan.mk op [l, r] i e).ProjectFree) :
    predicate.Links s t ↔ predicate.Spans l.leafColumns r.leafColumns := by
  rw [Predicate.links_iff, hl.columns_eq, hr.columns_eq,
    hl.columns_eq_leafColumns hfree.binary.1, hr.columns_eq_leafColumns hfree.binary.2]

end Matched

namespace FuseJoins

theorem turned_eq_facing {predicate : Predicate} {s : Statistics} {cs : List Column}
    (h : s.columns = cs) : turned predicate s = predicate.facing cs :=
  h ▸ rfl

/-- What has been collected on the way to a node: the equations among the predicates above it,
all of them the query's. -/
structure Collected (predicates above : List Predicate) (f : Floating) : Prop where
  reached : ∀ predicate ∈ above, predicate.isEqualsValue ∨ predicate ∈ f.predicates
  own : f.predicates ⊆ predicates

namespace Collected

variable {predicates above : List Predicate} {predicate : Predicate} {f : Floating} {i : NodeId}

theorem nil : Collected predicates [] [] :=
  ⟨List.forall_mem_nil _, List.nil_subset _⟩

theorem mem_of_spans {xs ys : List Column} (h : Collected predicates above f)
    (hm : predicate ∈ above) (hspan : predicate.Spans xs ys) : predicate ∈ f.predicates := by
  obtain hv | hf := h.reached predicate hm
  · exact absurd hv (by simp [hspan.isEqualsValue_eq])
  · exact hf

theorem valued (h : Collected predicates above f) (hv : predicate.isEqualsValue) :
    Collected predicates (predicate :: above) f :=
  ⟨List.forall_mem_cons.mpr ⟨.inl hv, h.reached⟩, h.own⟩

theorem add (h : Collected predicates above f) (hm : predicate ∈ predicates) :
    Collected predicates (predicate :: above) (f.add i predicate) := by
  have hadd := Floating.predicates_add (f := f) (i := i) (p := predicate)
  refine ⟨List.forall_mem_cons.mpr ⟨.inr (by simp [hadd]), fun x hx => ?_⟩, ?_⟩
  · exact (h.reached x hx).imp_right fun hf => by simp [hadd, hf]
  · rw [hadd]
    exact List.append_subset.mpr ⟨h.own, by simpa using hm⟩

end Collected

/-- Fusing turns every product that an equation spans into a join on such an equation. -/
theorem Fused.matched {n m : Nat} {p q : Plan} {f g : Floating} {s : Statistics}
    {predicates above : List Predicate} (h : Fused n p f m q g) (hp : p.Estimated s)
    (hfree : p.ProjectFree) (hd : p.DistinctColumns) (hg : Gathered predicates above p)
    (hf : Collected predicates above f) (hown : p.predicates ⊆ predicates) :
    q.Matched predicates := by
  induction h generalizing s above with
  | scan =>
      cases hg with
      | scan => exact matched_leaf
  | valued value _ added ih =>
      cases added
      rw [predicates_unary, List.append_subset] at hown
      cases hp with
      | select _ hq _ =>
          cases hg with
          | select input =>
              exact matched_unary.mpr (ih hq hfree.unary hd.unary input (hf.valued value) hown.2)
  | kept _ _ added ih =>
      cases added
      rw [predicates_unary, List.append_subset] at hown
      cases hp with
      | select _ hq _ =>
          cases hg with
          | select input =>
              have hm := hown.1 (List.mem_singleton_self _)
              exact matched_unary.mpr (ih hq hfree.unary hd.unary input (hf.add hm) hown.2)
  | gone _ _ ih =>
      rw [predicates_unary, List.append_subset] at hown
      cases hp with
      | select _ hq _ =>
          cases hg with
          | select input =>
              have hm := hown.1 (List.mem_singleton_self _)
              exact ih hq hfree.unary hd.unary input (hf.add hm) hown.2
  | project _ _ _ =>
      exact absurd hfree not_projectFree_project
  | unlinked hl hr none left right added ihl ihr =>
      cases added
      rw [predicates_binary, List.append_subset, List.append_subset] at hown
      obtain ⟨hdl, hdr, hdis⟩ := hd.binary
      cases hg with
      | product caught onLeft onRight =>
          have hil := ihl hl hfree.binary.1 hdl onLeft .nil hown.2.1
          have hir := ihr hr hfree.binary.2 hdr onRight .nil hown.2.2
          refine matched_binary.mpr ⟨fun hex => ?_, hil, hir⟩
          obtain ⟨predicate, hm, hspan⟩ := hex
          rw [leafColumns_congr left.scans, leafColumns_congr right.scans] at hspan
          have hafloat := hf.mem_of_spans (caught predicate hm hspan) hspan
          obtain ⟨x, hx, rfl⟩ := List.mem_map.mp hafloat
          exact (none x hx ((hl.links_iff hr hfree).mpr hspan)).elim
  | linked hl hr chosen left right output added ihl ihr =>
      cases added
      obtain ⟨hchosen, links⟩ := mem_of_choice chosen
      rw [predicates_binary, List.append_subset, List.append_subset] at hown
      obtain ⟨hdl, hdr, hdis⟩ := hd.binary
      cases hg with
      | product caught onLeft onRight =>
          have hil := ihl hl hfree.binary.1 hdl onLeft .nil hown.2.1
          have hir := ihr hr hfree.binary.2 hdr onRight .nil hown.2.2
          obtain ⟨d, hl'⟩ := left.known hl
          obtain rfl := Except.ok.inj (hl'.output_eq.symm.trans output)
          have hu := hl'.columns_eq.trans
            (left.columns.trans (hl.columns_eq_leafColumns hfree.binary.1))
          refine matched_binary.mpr ⟨?_, hil, hir⟩
          rw [turned_eq_facing hu, leafColumns_congr left.scans, leafColumns_congr right.scans]
          exact matched_of_spans ((hl.links_iff hr hfree).mp links) hdis
            (hf.own (List.mem_map_of_mem hchosen))
  | join _ _ _ _ _ => cases hg

/-- Fusing a plan whose predicates are gathered leaves no product that one of them spans. -/
theorem matched_of_run {p q : Plan} {x y : Progress} {s : Statistics} {o : Option (List Column)}
    {predicates : List Predicate} (h : Returns (run p) x q y) (hp : p.Estimated s)
    (hr : Rooted o p) (hd : p.DistinctColumns) (hg : Gathered predicates [] p)
    (hown : p.predicates ⊆ predicates) : q.Matched predicates := by
  obtain ⟨g, fused⟩ := fused_of_run h hp
  cases hr with
  | bare hf => exact fused.matched hp hf hd hg .nil hown
  | under hf =>
      generalize x.issued = n, y.issued = m at fused
      rw [predicates_unary, List.append_subset] at hown
      cases hp with
      | project _ hq _ =>
          cases hg with
          | project input =>
              cases fused with
              | project fused added =>
                  cases added
                  exact matched_unary.mpr (fused.matched hq hf hd.unary input .nil hown.2)

end FuseJoins

namespace PushProjects

variable {needed : List Column} {n m : Nat} {p q : Plan} {predicates : List Predicate}

theorem Trimmed.matched (h : Trimmed needed n p m q) (hp : p.Matched predicates) :
    q.Matched predicates := by
  cases h with
  | same _ => exact hp
  | cut _ _ added =>
      cases added
      exact matched_unary.mpr hp

theorem Pruned.matched (h : Pruned needed n p m q) (hp : p.Matched predicates) :
    q.Matched predicates := by
  induction h with
  | scan trimmed => exact trimmed.matched hp
  | select _ added _ trimmed ih =>
      cases added
      exact trimmed.matched (matched_unary.mpr (ih (matched_unary.mp hp)))
  | project _ ih => exact ih (matched_unary.mp hp)
  | pair _ left right added _ trimmed ihl ihr =>
      cases added
      obtain ⟨ho, hl, hr⟩ := matched_binary.mp hp
      refine trimmed.matched (matched_binary.mpr ⟨?_, ihl hl, ihr hr⟩)
      rwa [leafColumns_congr left.scans, leafColumns_congr right.scans]

theorem matched_of_run {x y : Progress} {s : Statistics} (h : Returns (run p) x q y)
    (hp : p.Estimated s) (hm : p.Matched predicates) : q.Matched predicates := by
  obtain ⟨rfl, _⟩ | pruned := pruned_of_run h hp
  · exact hm
  · exact pruned.matched hm

end PushProjects

section Standard

variable {options : Options} {rule : Rule} {rules : List Rule} {n : Nat} {p q : Plan}
  {s t : Progress} {o : Option (List Column)}

/-- The first of several rules that are all enabled is applied, and the others go on. -/
theorem Ready.applied (hp : Ready n o s p)
    (h : Returns ((rule :: rules).foldlM options.step p) s q t)
    (hr : rule ∉ options.disabled) (hn : rule ≠ .pushProjectsDown) (ht : t.issued ≤ n + 2 ^ 32) :
    ∃ r u v w, Returns (rule.apply p) v r w ∧ Returns (rules.foldlM options.step r) u q t ∧
      Ready n o u r ∧ p.ids.Nodup := by
  obtain ⟨r, u, step, rest⟩ := returns_steps.mp h
  obtain ⟨e, he⟩ := hp.known
  have hnew := renewed_of_step step he
  obtain ⟨_, hk⟩ := hnew.known
  have hs : s.issued ≤ n + 2 ^ 32 := (hnew.le.trans (renewed_of_steps rest hk).le).trans ht
  obtain ⟨hm, _⟩ | ⟨v, w, applied, _⟩ := returns_step step
  · exact (hr hm).elim
  · exact ⟨r, u, v, w, applied, rest, hp.step step hn hs, nodup_of_issued hp.ids hs⟩

/-- The standard rules leave no product that an equation spans. -/
theorem matched_of_standard (hp : Ready n o s p) (hj : p.JoinFree)
    (h : Returns (Rule.standard.foldlM options.step p) s q t) (hd : options.disabled = [])
    (ht : t.issued ≤ n + 2 ^ 32) : q.Matched p.predicates := by
  have hen (rule : Rule) : rule ∉ options.disabled := hd ▸ List.not_mem_nil
  obtain ⟨p₁, u₁, _, _, pushed, rest₁, hp₁, hi⟩ := hp.applied h (hen _) (by decide) ht
  obtain ⟨e, he⟩ := hp.known
  have hj₁ := (PushSelects.pushed_of_run pushed).every he (fun _ => rfl) hj
  have hperm₁ := PushSelects.predicates_of_run pushed he hi
  obtain ⟨p₂, u₂, _, _, reordered, rest₂, hp₂, _⟩ := hp₁.applied rest₁ (hen _) (by decide) ht
  obtain ⟨e₁, he₁⟩ := hp₁.known
  have ran := ReorderProducts.ran_of_returns reordered he₁
  have hj₂ := ran.every (fun _ => rfl) hj₁
  have hperm₂ := ran.predicates.trans hperm₁
  obtain ⟨p₃, u₃, _, _, gathering, rest₃, hp₃, hi₂⟩ := hp₂.applied rest₂ (hen _) (by decide) ht
  obtain ⟨e₂, he₂⟩ := hp₂.known
  have gathered := PushSelects.gathered_of_run gathering he₂ hi₂ hp₂.rooted hj₂ hp₂.distinct
  have hperm₃ := PushSelects.predicates_of_run gathering he₂ hi₂
  obtain ⟨p₄, u₄, _, _, fused, rest₄, hp₄, _⟩ := hp₃.applied rest₃ (hen _) (by decide) ht
  obtain ⟨e₃, he₃⟩ := hp₃.known
  have matched := FuseJoins.matched_of_run fused he₃ hp₃.rooted hp₃.distinct gathered hperm₃.subset
  obtain ⟨e₄, he₄⟩ := hp₄.known
  have hq : q.Matched p₂.predicates := by
    obtain ⟨r, u, step, rest⟩ := returns_steps.mp rest₄
    obtain ⟨rfl, rfl⟩ := returns_pure.mp rest
    obtain ⟨_, rfl, _⟩ | ⟨v, w, applied, _⟩ := returns_step step
    · exact matched
    · exact PushProjects.matched_of_run applied he₄ matched
  exact hq.congr fun _ => hperm₂.symm.mem_iff

end Standard

end QueryPlan
