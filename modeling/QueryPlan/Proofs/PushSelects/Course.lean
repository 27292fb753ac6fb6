import QueryPlan.Proofs.PushSelects.Pushed

/-!
Which nodes take a predicate that floats above a plan, and which nodes it comes by
before it is taken. Both can be told from the plan before the walk. As long as no
selection finds an entry of another under its own number, what goes on floating is
what no node takes, and no predicate is lost or doubled.
-/

namespace QueryPlan.Plan

/-- What is said of a selection by its number, its predicate and the plan below. Of other nodes
nothing is said. -/
def IfSelection (P : NodeId → Predicate → Plan → Prop) : Plan → Prop
  | ⟨.select predicate, [q], i, _⟩ => P i predicate q
  | ⟨_, _, _, _⟩ => True

instance {P : NodeId → Predicate → Plan → Prop} [∀ i predicate q, Decidable (P i predicate q)]
    (p : Plan) : Decidable (p.IfSelection P) :=
  match p with
  | ⟨.select predicate, [q], i, _⟩ => inferInstanceAs (Decidable (P i predicate q))
  | ⟨.select _, [], _, _⟩ | ⟨.select _, _ :: _ :: _, _, _⟩ | ⟨.scan _, _, _, _⟩
  | ⟨.project _, _, _, _⟩ | ⟨.product, _, _, _⟩ | ⟨.join _, _, _, _⟩ => isTrue trivial

def EachSelection (P : NodeId → Predicate → Plan → Prop) (p : Plan) : Prop :=
  ∀ x ∈ p.preorder, x.IfSelection P

instance {P : NodeId → Predicate → Plan → Prop} [∀ i predicate q, Decidable (P i predicate q)]
    (p : Plan) : Decidable (p.EachSelection P) :=
  inferInstanceAs (Decidable (∀ x ∈ p.preorder, x.IfSelection P))

section EachSelection

variable {P : NodeId → Predicate → Plan → Prop} {q l r : Plan} {i : NodeId}
  {e : Option Statistics} {op : Operator}

theorem ifSelection_binary : (Plan.mk op [l, r] i e).IfSelection P := by
  cases op <;> trivial

theorem eachSelection_scan {b : BaseRelation} : (Plan.mk (.scan b) [] i e).EachSelection P := by
  intro x hx
  rw [List.mem_singleton.mp hx]
  trivial

theorem eachSelection_select {predicate : Predicate} :
    (Plan.mk (.select predicate) [q] i e).EachSelection P ↔
      P i predicate q ∧ q.EachSelection P := by
  rw [EachSelection, preorder_unary, List.forall_mem_cons]
  rfl

theorem eachSelection_project {cs : List Column} :
    (Plan.mk (.project cs) [q] i e).EachSelection P ↔ q.EachSelection P := by
  rw [EachSelection, preorder_unary, List.forall_mem_cons]
  exact and_iff_right trivial

theorem eachSelection_binary :
    (Plan.mk op [l, r] i e).EachSelection P ↔ l.EachSelection P ∧ r.EachSelection P := by
  rw [EachSelection, preorder_binary, List.forall_mem_cons, List.forall_mem_append]
  exact and_iff_right ifSelection_binary

end EachSelection

end QueryPlan.Plan

namespace QueryPlan.PushSelects

open Planner Plan

variable {n m : Nat} {p q q' l r x : Plan} {i : NodeId} {e : Option Statistics} {op : Operator}
  {predicate : Predicate} {f f' g : Floating} {s : Statistics}

/-- A scan takes comparisons of its own columns with constants, a product or join whatever its
columns cover. -/
def takes (x : Plan) (predicate : Predicate) : Bool :=
  match x.operator with
  | .scan r => scanTakes r predicate
  | .product | .join _ => ∀ c ∈ predicate.columns, c ∈ x.columns
  | .select _ | .project _ => false

/-- Some node of the plan takes the predicate. -/
def absorbs (p : Plan) (predicate : Predicate) : Bool :=
  p.preorder.any fun x => takes x predicate

theorem takes_binary (ho : op.arity = 2) :
    takes ⟨op, [l, r], i, e⟩ = fun predicate : Predicate =>
      decide (∀ c ∈ predicate.columns, c ∈ l.columns ++ r.columns) := by
  funext predicate
  obtain rfl | ⟨_, rfl⟩ := product_or_join ho <;> rfl

theorem absorbs_scan {b : BaseRelation} : absorbs ⟨.scan b, [], i, e⟩ = scanTakes b := by
  funext predicate
  simp [absorbs, preorder_eq, preorderAll, takes]

theorem absorbs_unary (ho : op.arity = 1) : absorbs ⟨op, [q], i, e⟩ = absorbs q := by
  funext predicate
  rw [absorbs, preorder_unary, List.any_cons]
  cases op with
  | select _ | project _ => rfl
  | scan _ | product | join _ => cases ho

theorem absorbs_binary :
    absorbs ⟨op, [l, r], i, e⟩ = fun predicate =>
      absorbs l predicate || (absorbs r predicate || takes ⟨op, [l, r], i, e⟩ predicate) := by
  funext predicate
  rw [absorbs, preorder_binary, List.any_cons, List.any_append, Bool.or_comm, Bool.or_assoc]
  rfl

theorem not_absorbs_binary :
    ¬ absorbs ⟨op, [l, r], i, e⟩ predicate ↔
      ¬ absorbs l predicate ∧ ¬ absorbs r predicate ∧ ¬ takes ⟨op, [l, r], i, e⟩ predicate := by
  simp only [absorbs_binary, Bool.or_eq_true, not_or]

/-- What covers the output of a product or join made again, covered it before. -/
theorem covered_eq_takes (ho : op.arity = 2) (hs : s.columns = l.columns ++ r.columns) :
    (fun predicate : Predicate => decide (predicate.CoveredBy s)) = takes ⟨op, [l, r], i, e⟩ := by
  rw [takes_binary ho, ← hs]
  rfl

/-- The nodes that a predicate floating above a plan comes by. What the left input absorbs
never reaches the right one. -/
def course (predicate : Predicate) : Plan → List Plan
  | ⟨op, [q], i, e⟩ => ⟨op, [q], i, e⟩ :: course predicate q
  | ⟨op, [l, r], i, e⟩ =>
      ⟨op, [l, r], i, e⟩ ::
        (course predicate l ++ if absorbs l predicate then [] else course predicate r)
  | p => [p]

theorem mem_course_self : p ∈ course predicate p := by
  unfold course
  split <;> simp

theorem mem_course_unary (h : x ∈ course predicate q) :
    x ∈ course predicate ⟨op, [q], i, e⟩ :=
  List.mem_cons_of_mem _ h

theorem mem_course_left (h : x ∈ course predicate l) :
    x ∈ course predicate ⟨op, [l, r], i, e⟩ :=
  List.mem_cons_of_mem _ (List.mem_append_left _ h)

theorem mem_course_right (hn : ¬ absorbs l predicate) (h : x ∈ course predicate r) :
    x ∈ course predicate ⟨op, [l, r], i, e⟩ := by
  refine List.mem_cons_of_mem _ (List.mem_append_right _ ?_)
  rwa [if_neg hn]

theorem course_subset : course predicate p ⊆ p.preorder := by
  fun_induction course predicate p with
  | case1 op q i e ih =>
      rw [preorder_unary]
      exact List.cons_subset_cons _ ih
  | case2 op l r i e ihl ihr =>
      have hr : (if absorbs l predicate then [] else course predicate r) ⊆ r.preorder := by
        split
        · exact List.nil_subset _
        · exact ihr
      rw [preorder_binary]
      refine List.cons_subset_cons _ (List.append_subset.mpr ⟨?_, ?_⟩)
      · exact List.subset_append_of_subset_left _ ihl
      · exact List.subset_append_of_subset_right _ hr
  | case3 p _ _ => exact List.cons_subset.mpr ⟨mem_preorder_self p, List.nil_subset _⟩

/-- Where the entry comes by a selection of its own number, that one has the same predicate, or
the entry's has been taken below it. -/
def Spares (p : Plan) (entry : Floating.Entry) : Prop :=
  ∀ x ∈ course entry.predicate p, x.IfSelection fun i predicate q =>
    i = entry.origin → predicate = entry.predicate ∨ absorbs q entry.predicate

instance (p : Plan) (entry : Floating.Entry) : Decidable (Spares p entry) :=
  inferInstanceAs (Decidable (∀ x ∈ course entry.predicate p, x.IfSelection _))

/-- No selection comes back to an entry of another predicate under its own number. -/
def Untangled (p : Plan) : Prop :=
  p.EachSelection fun i predicate q => Spares q ⟨i, predicate⟩

instance (p : Plan) : Decidable (Untangled p) :=
  inferInstanceAs (Decidable (p.EachSelection _))

section Spares

variable {entry : Floating.Entry}

theorem Spares.unary (h : Spares ⟨op, [q], i, e⟩ entry) : Spares q entry :=
  fun x hx => h x (mem_course_unary hx)

theorem Spares.left (h : Spares ⟨op, [l, r], i, e⟩ entry) : Spares l entry :=
  fun x hx => h x (mem_course_left hx)

theorem Spares.right (h : Spares ⟨op, [l, r], i, e⟩ entry) (hn : ¬ absorbs l entry.predicate) :
    Spares r entry :=
  fun x hx => h x (mem_course_right hn hx)

theorem Spares.own (h : Spares ⟨.select predicate, [q], i, e⟩ entry) (hi : entry.origin = i) :
    predicate = entry.predicate ∨ absorbs q entry.predicate :=
  h _ mem_course_self hi.symm

theorem spares_of_not_mem (hi : entry.origin ∉ p.ids) : Spares p entry := by
  intro x hx
  have hn : x.id ≠ entry.origin := fun heq =>
    hi (heq ▸ List.mem_map_of_mem (course_subset hx))
  unfold IfSelection
  split
  · exact fun heq => absurd heq hn
  · trivial

theorem Spares.add (h : ∀ entry ∈ f, Spares ⟨.select predicate, [q], i, e⟩ entry)
    (hi : Spares q ⟨i, predicate⟩) : ∀ entry ∈ f.add i predicate, Spares q entry := by
  intro entry he
  obtain he | he := List.mem_append.mp he
  · exact (h entry he).unary
  · rw [List.mem_singleton.mp he]
    exact hi

/-- What the left input lets through is spared on the right. -/
theorem Spares.rest (h : ∀ entry ∈ f, Spares ⟨op, [l, r], i, e⟩ entry)
    (hg : g.Perm (f.untaken (absorbs l))) : ∀ entry ∈ g, Spares r entry := by
  intro entry he
  obtain ⟨hm, hn⟩ := Floating.mem_untaken.mp (hg.mem_iff.mp he)
  exact (h entry hm).right hn

end Spares

theorem untangled_of_nodup (hp : p.Estimated s) (hi : p.ids.Nodup) : Untangled p := by
  induction hp with
  | scan _ _ => exact eachSelection_scan
  | select i _ _ ih =>
      rw [ids_unary, List.nodup_cons] at hi
      exact eachSelection_select.mpr ⟨spares_of_not_mem hi.1, ih hi.2⟩
  | project i _ _ ih =>
      rw [ids_unary, List.nodup_cons] at hi
      exact eachSelection_project.mpr (ih hi.2)
  | product i _ _ ihl ihr | join i _ _ _ ihl ihr =>
      rw [ids_binary, List.nodup_cons] at hi
      exact eachSelection_binary.mpr ⟨ihl hi.2.of_append_left, ihr hi.2.of_append_right⟩

/-- The entry that a selection takes back is its own, or one just like it. -/
theorem own_of_found (hr : f'.Perm ((f.add i predicate).untaken (absorbs q)))
    (hf : ∀ entry ∈ f, Spares ⟨.select predicate, [q], i, e⟩ entry)
    (found : f'.remove? i = some g) :
    f'.Perm (⟨i, predicate⟩ :: g) ∧ ¬ absorbs q predicate := by
  obtain ⟨entry, hi, hperm⟩ := Floating.perm_of_remove? found
  have hm := hr.mem_iff.mp (hperm.mem_iff.mpr List.mem_cons_self)
  obtain ⟨hm, hn⟩ := Floating.mem_untaken.mp hm
  suffices he : entry = ⟨i, predicate⟩ by
    subst he
    exact ⟨hperm, hn⟩
  obtain hm | hm := List.mem_append.mp hm
  · have hp := ((hf entry hm).own hi).resolve_right hn
    rw [hp, ← hi]
  · exact List.mem_singleton.mp hm

theorem absorbed_of_gone (hr : f'.Perm ((f.add i predicate).untaken (absorbs q)))
    (gone : f'.remove? i = none) : absorbs q predicate := by
  by_contra hn
  have hm : (⟨i, predicate⟩ : Floating.Entry) ∈ f.add i predicate :=
    List.mem_append_right _ (List.mem_singleton_self _)
  refine (Floating.remove?_eq_none_iff f' i).mp gone ⟨i, predicate⟩ ?_ rfl
  exact hr.mem_iff.mpr (Floating.mem_untaken.mpr ⟨hm, hn⟩)

namespace Pushed

/-- A product or join made again has the columns of both inputs. -/
theorem columns_pair {k : Nat} {l' r' b : Plan} {h : Floating} {t u : Statistics}
    (binary : op.arity = 2) (left : Pushed n l f m l' g) (right : Pushed m r g k r' h)
    (hl : l.Estimated s) (hr : r.Estimated t) (added : Added k op [l', r'] b)
    (output : b.output = .ok u) : u.columns = l.columns ++ r.columns := by
  obtain ⟨_, hl'⟩ := left.estimated hl
  obtain ⟨_, hr'⟩ := right.estimated hr
  obtain ⟨v, hb⟩ := added.binary hl' hr' binary
  obtain rfl : v = u := Except.ok.inj (hb.output_eq.symm.trans output)
  rw [hb.columns_eq]
  cases added
  rw [columns_binary binary, left.columns hl, right.columns hr]

/-- What goes on floating is what no node takes. -/
theorem rest_perm (h : Pushed n p f m q g) (hp : p.Estimated s) (hu : Untangled p)
    (hf : ∀ entry ∈ f, Spares p entry) : g.Perm (f.untaken (absorbs p)) := by
  induction h generalizing s with
  | scan _ =>
      cases hp with
      | scan _ _ => rw [absorbs_scan]
  | kept _ found _ ih =>
      cases hp with
      | select _ hq _ =>
          obtain ⟨hi, hu⟩ := eachSelection_select.mp hu
          have hr := ih hq hu (Spares.add hf hi)
          -- whichever entry is taken back, it is equal to the selection's own
          obtain ⟨hperm, hn⟩ := own_of_found hr hf found
          rw [Floating.untaken_add, if_neg hn] at hr
          rw [absorbs_unary rfl]
          exact ((hperm.symm.trans hr).trans (List.perm_append_singleton _ _)).cons_inv
  | landed _ gone ih =>
      cases hp with
      | select _ hq _ =>
          obtain ⟨hi, hu⟩ := eachSelection_select.mp hu
          have hr := ih hq hu (Spares.add hf hi)
          have ha := absorbed_of_gone hr gone
          rw [absorbs_unary rfl]
          rwa [Floating.untaken_add, if_pos ha] at hr
  | project _ _ ih =>
      cases hp with
      | project _ hq _ =>
          rw [absorbs_unary rfl]
          exact ih hq (eachSelection_project.mp hu) fun entry he => (hf entry he).unary
  | @pair _ _ _ _ op l r _ _ _ _ _ i e f g h _ binary left right added output _ ihl ihr =>
      obtain ⟨rfl, ⟨_, hl⟩, ⟨_, hr⟩⟩ := hp.binary
      obtain ⟨hul, hur⟩ := eachSelection_binary.mp hu
      have hg := ihl hl hul fun entry he => (hf entry he).left
      have hh := ihr hr hur (Spares.rest hf hg)
      rw [covered_eq_takes binary (columns_pair binary left right hl hr added output)]
      calc (h.untaken (takes ⟨op, [l, r], i, e⟩)).Perm
            (((f.untaken (absorbs l)).untaken (absorbs r)).untaken (takes ⟨op, [l, r], i, e⟩)) :=
          (hh.trans (hg.filter _)).filter _
        _ = f.untaken (absorbs ⟨op, [l, r], i, e⟩) := by
          rw [Floating.untaken_untaken, Floating.untaken_untaken, absorbs_binary]

/-- No predicate is lost or doubled. -/
theorem predicates_add (h : Pushed n p f m q g) (hp : p.Estimated s) (hu : Untangled p)
    (hf : ∀ entry ∈ f, Spares p entry) :
    (q.predicates : Multiset Predicate) + g.predicates = p.predicates + f.predicates := by
  induction h generalizing s with
  | scan stacked =>
      cases hp with
      | scan _ _ =>
          rw [stacked.predicates_eq, predicates_leaf]
          simp only [Operator.predicate?, Option.toList_none, Multiset.coe_nil, add_zero, zero_add]
          exact Floating.taken_add_untaken _ _
  | @kept _ _ predicate q q' _ _ i _ f f' g input found added ih =>
      cases added
      cases hp with
      | select _ hq _ =>
          obtain ⟨hi, hu⟩ := eachSelection_select.mp hu
          have hfq := Spares.add hf hi
          obtain ⟨hperm, _⟩ := own_of_found (input.rest_perm hq hu hfq) hf found
          have hf' : (f'.predicates : Multiset Predicate) = predicate ::ₘ ↑g.predicates :=
            Multiset.coe_eq_coe.mpr (hperm.map Floating.Entry.predicate)
          have hin := ih hq hu hfq
          rw [hf', Floating.predicates_add, ← Multiset.coe_add, Multiset.coe_singleton,
            ← Multiset.singleton_add] at hin
          rw [predicates_unary, predicates_unary, ← Multiset.coe_add, ← Multiset.coe_add]
          simp only [Operator.predicate?, Option.toList_some, Multiset.coe_singleton]
          calc ({predicate} : Multiset Predicate) + q'.predicates + g.predicates
              = q'.predicates + ({predicate} + g.predicates) := by ac_rfl
            _ = {predicate} + q.predicates + f.predicates := by
                rw [hin]
                ac_rfl
  | landed _ _ ih =>
      cases hp with
      | select _ hq _ =>
          obtain ⟨hi, hu⟩ := eachSelection_select.mp hu
          rw [ih hq hu (Spares.add hf hi), Floating.predicates_add, predicates_unary,
            ← Multiset.coe_add, ← Multiset.coe_add]
          simp only [Operator.predicate?, Option.toList_some]
          ac_rfl
  | project _ added ih =>
      cases added
      cases hp with
      | project _ hq _ =>
          simpa [Operator.predicate?] using
            ih hq (eachSelection_project.mp hu) fun entry he => (hf entry he).unary
  | @pair _ _ _ _ op l r l' r' _ _ _ _ _ f g h _ binary left right added output stacked ihl ihr =>
      obtain ⟨rfl, ⟨_, hl⟩, ⟨_, hr⟩⟩ := hp.binary
      obtain ⟨hul, hur⟩ := eachSelection_binary.mp hu
      have hfl : ∀ entry ∈ f, Spares l entry := fun entry he => (hf entry he).left
      have hfr := Spares.rest hf (left.rest_perm hl hul hfl)
      have htaken (u : Statistics) := Floating.taken_add_untaken h fun p => p.CoveredBy u
      cases added
      rw [stacked.predicates_eq, add_right_comm, htaken, predicates_binary, predicates_binary]
      simp only [← Multiset.coe_add]
      calc (h.predicates : Multiset Predicate) +
            (op.predicate?.toList + (l'.predicates + r'.predicates))
          = op.predicate?.toList + (l'.predicates + (r'.predicates + h.predicates)) := by ac_rfl
        _ = op.predicate?.toList + (r.predicates + (l'.predicates + g.predicates)) := by
            rw [ihr hr hur hfr]
            ac_rfl
        _ = op.predicate?.toList + (l.predicates + r.predicates) + f.predicates := by
            rw [ihl hl hul hfl]
            ac_rfl

end Pushed

end QueryPlan.PushSelects
