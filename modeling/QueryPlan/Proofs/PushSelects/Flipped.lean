import QueryPlan.Proofs.PushSelects.Lowest

/-!
Pushing selections down again. After one pass each selection that some node takes stands in
the run directly above that node, so the next pass puts it there once more. But what a node
takes comes down to it from the top and is stacked from the bottom, so the next pass turns the
run over, and the one after that turns it back.
-/

namespace QueryPlan

/-- A run of selections above a node, the lowest first, once the node has taken from it what it
takes. A scan takes the comparisons with constants directly above it, a projection nothing. -/
def Operator.turn (op : Operator) (run : List Predicate) : List Predicate :=
  match op with
  | .scan _ => (run.takeWhile Predicate.isEqualsValue).reverse ++
      run.dropWhile Predicate.isEqualsValue
  | .product | .join _ => run.reverse
  | .select _ | .project _ => run

section Turn

variable {op : Operator} {r : BaseRelation} {run ps qs : List Predicate} {predicate : Predicate}

theorem turn_scan (hp : ∀ p ∈ ps, p.isEqualsValue) (hq : ∀ q ∈ qs.head?, ¬ q.isEqualsValue) :
    Operator.turn (.scan r) (ps ++ qs) = ps.reverse ++ qs := by
  rw [Operator.turn, List.takeWhile_append_of_pos hp, List.dropWhile_append_of_pos hp]
  cases qs with
  | nil => simp
  | cons q qs => simp [hq q rfl]

theorem turn_scan_of_all (hp : ∀ p ∈ ps, p.isEqualsValue) :
    Operator.turn (.scan r) ps = ps.reverse := by
  simpa using @turn_scan r ps [] hp (by simp)

theorem exists_turn_scan (run : List Predicate) :
    ∃ ps qs, run = ps ++ qs ∧ (∀ p ∈ ps, p.isEqualsValue) ∧
      ∀ q ∈ qs.head?, ¬ q.isEqualsValue := by
  induction run with
  | nil => exact ⟨[], [], rfl, List.forall_mem_nil _, by simp⟩
  | cons p run ih =>
      obtain ⟨ps, qs, rfl, hp, hq⟩ := ih
      by_cases hv : p.isEqualsValue
      · exact ⟨p :: ps, qs, rfl, List.forall_mem_cons.mpr ⟨hv, hp⟩, hq⟩
      · exact ⟨[], p :: (ps ++ qs), rfl, List.forall_mem_nil _, by simpa using hv⟩

theorem turn_turn (op : Operator) (run : List Predicate) : op.turn (op.turn run) = run := by
  cases op with
  | scan r =>
      obtain ⟨ps, qs, rfl, hp, hq⟩ := exists_turn_scan run
      have hr : ∀ p ∈ ps.reverse, p.isEqualsValue := fun p hm => hp p (List.mem_reverse.mp hm)
      rw [turn_scan hp hq, turn_scan hr hq, List.reverse_reverse]
  | product | join _ => exact List.reverse_reverse run
  | select _ | project _ => rfl

end Turn

namespace Plan

/-- Selections over a plan, the first predicate lowest. Numbers and estimates are left out. -/
def piled (p : Plan) (predicates : List Predicate) : Plan :=
  predicates.foldl (fun q predicate => ⟨.select predicate, [q], 0, none⟩) p

def pile : Plan → List Predicate
  | ⟨.select predicate, [q], _, _⟩ => predicate :: pile q
  | _ => []

mutual

/-- The plan below a run of selections, the lowest first, with this and all other runs turned. -/
def flippedBelow (above : List Predicate) : Plan → Plan
  | ⟨.select predicate, [q], _, _⟩ => flippedBelow (predicate :: above) q
  | ⟨op, ps, _, _⟩ => piled ⟨op, flippedAll ps, 0, none⟩ (op.turn above)

def flippedAll : List Plan → List Plan
  | [] => []
  | p :: ps => flippedBelow [] p :: flippedAll ps

end

/-- The plan with the selections that stand directly above a scan and compare with a constant in
reverse order, and so those directly above a product or join. Numbers and estimates are left
out. -/
def flipped (p : Plan) : Plan :=
  p.flippedBelow []

section Flipped

variable {p q l r : Plan} {i : NodeId} {e : Option Statistics} {op : Operator}
  {predicate : Predicate} {above ps : List Predicate} {s : Statistics}

theorem piled_cons :
    p.piled (predicate :: ps) = (Plan.mk (.select predicate) [p] 0 none).piled ps :=
  rfl

theorem piled_concat :
    p.piled (ps ++ [predicate]) = ⟨.select predicate, [p.piled ps], 0, none⟩ := by
  rw [piled, List.foldl_append]
  rfl

theorem flippedBelow_select :
    (Plan.mk (.select predicate) [q] i e).flippedBelow above =
      q.flippedBelow (predicate :: above) := by
  rw [flippedBelow]

theorem flippedBelow_scan {b : BaseRelation} :
    (Plan.mk (.scan b) [] i e).flippedBelow above =
      (Plan.mk (.scan b) [] 0 none).piled (Operator.turn (.scan b) above) := by
  rw [flippedBelow, flippedAll]
  exact fun _ _ ho => by cases ho

theorem flippedBelow_project {cs : List Column} :
    (Plan.mk (.project cs) [q] i e).flippedBelow above =
      (Plan.mk (.project cs) [q.flipped] 0 none).piled above := by
  rw [flippedBelow, flippedAll, flippedAll]
  · rfl
  · exact fun _ _ ho => by cases ho

theorem flippedBelow_binary (ho : op.arity = 2) :
    (Plan.mk op [l, r] i e).flippedBelow above =
      (Plan.mk op [l.flipped, r.flipped] 0 none).piled above.reverse := by
  obtain rfl | ⟨_, rfl⟩ := product_or_join ho <;>
    simp [flippedBelow, flippedAll, flipped, Operator.turn]

theorem flippedBelow_piled :
    (p.piled ps).flippedBelow above = p.flippedBelow (ps ++ above) := by
  induction ps generalizing p with
  | nil => rfl
  | cons predicate ps ih => rw [piled_cons, ih, flippedBelow_select, List.cons_append]

theorem flipped_piled : (p.piled ps).flipped = p.flippedBelow ps := by
  rw [flipped, flippedBelow_piled, List.append_nil]

/-- What the node below does not turn over may be put on top afterwards. -/
theorem flippedBelow_concat
    (ht : ∀ run, p.base.operator.turn (run ++ [predicate]) =
      p.base.operator.turn run ++ [predicate]) :
    p.flippedBelow (above ++ [predicate]) =
      ⟨.select predicate, [p.flippedBelow above], 0, none⟩ := by
  fun_induction base p generalizing above with
  | case1 _ _ _ _ ih =>
      rw [flippedBelow_select, flippedBelow_select, ← List.cons_append]
      exact ih ht
  | case2 p hp =>
      obtain ⟨op, ps, i, e⟩ := p
      have hbelow (run : List Predicate) : (Plan.mk op ps i e).flippedBelow run =
          (Plan.mk op (flippedAll ps) 0 none).piled (op.turn run) := by
        rw [flippedBelow]
        intro predicate q ho hq
        exact hp predicate q i e (by rw [ho, hq])
      rw [hbelow, hbelow, ht, piled_concat]

theorem flippedBelow_skeleton (h : p.Estimated s) :
    p.skeleton.flippedBelow above = p.flippedBelow above := by
  induction h generalizing above with
  | scan _ _ => rw [skeleton_leaf, flippedBelow_scan, flippedBelow_scan]
  | select _ _ _ ih => rw [skeleton_unary, flippedBelow_select, flippedBelow_select, ih]
  | project _ _ _ ih =>
      rw [skeleton_unary, flippedBelow_project, flippedBelow_project, flipped, flipped, ih]
  | product _ _ _ ihl ihr | join _ _ _ _ ihl ihr =>
      rw [skeleton_binary, flippedBelow_binary rfl, flippedBelow_binary rfl, flipped, flipped,
        flipped, flipped, ihl, ihr]

/-- Flipped twice, a plan is what it was. -/
theorem flipped_flippedBelow (h : p.Estimated s) :
    (p.flippedBelow above).flipped = p.skeleton.piled above := by
  induction h generalizing above with
  | scan r i =>
      rw [flippedBelow_scan, flipped_piled, flippedBelow_scan, turn_turn, skeleton_leaf]
  | select _ _ _ ih => rw [flippedBelow_select, ih, skeleton_unary, piled_cons]
  | @project q _ _ _ _ _ _ ih =>
      have hq : q.flipped.flipped = q.skeleton := ih
      rw [flippedBelow_project, flipped_piled, flippedBelow_project, hq, skeleton_unary]
  | @product l r _ _ _ _ _ ihl ihr | @join l r _ _ _ _ _ _ _ _ ihl ihr =>
      have hl : l.flipped.flipped = l.skeleton := ihl
      have hr : r.flipped.flipped = r.skeleton := ihr
      rw [flippedBelow_binary rfl, flipped_piled, flippedBelow_binary rfl, hl, hr,
        List.reverse_reverse, skeleton_binary]

theorem flipped_flipped (h : p.Estimated s) : p.flipped.flipped = p.skeleton :=
  flipped_flippedBelow h

theorem skeleton_stacked {n m : Nat} (h : Planner.Stacked n p ps m q) :
    q.skeleton = p.skeleton.piled ps := by
  induction h with
  | nil => rfl
  | cons added _ ih =>
      cases added
      rw [ih, skeleton_unary, piled_cons]

theorem pile_binary (ho : op.arity = 2) : (Plan.mk op [l, r] i e).pile = [] := by
  obtain rfl | ⟨_, rfl⟩ := product_or_join ho <;> rfl

theorem columns_base : p.base.columns = p.columns := by
  fun_induction base p with
  | case1 _ _ _ _ ih => rw [ih, columns]
  | case2 _ _ => rfl

theorem EachSelection.and {P Q : NodeId → Predicate → Plan → Prop} (h : p.EachSelection P)
    (h' : p.EachSelection Q) :
    p.EachSelection fun i predicate q => P i predicate q ∧ Q i predicate q := by
  intro x hx
  have hP := h x hx
  have hQ := h' x hx
  unfold IfSelection at hP hQ ⊢
  split
  · exact ⟨hP, hQ⟩
  · trivial

end Flipped

end Plan

namespace PushSelects

open Planner Plan

variable {n m : Nat} {p q l r : Plan} {i : NodeId} {e : Option Statistics} {op : Operator}
  {f g : Floating} {s : Statistics} {predicate : Predicate} {predicates : List Predicate}

/-- If any node below takes the predicate, the first one takes all that stands above it. -/
def Packed (predicate : Predicate) (p : Plan) : Prop :=
  absorbs p predicate → ∀ x ∈ p.pile, takes p.base x

theorem packed_stacked (h : Stacked n p predicates m q) (hp : p.EachSelection fun _ => Packed)
    (hpile : ∀ x ∈ p.pile, takes p.base x) (hs : ∀ x ∈ predicates, takes p.base x) :
    q.EachSelection fun _ => Packed := by
  induction h with
  | nil => exact hp
  | cons added _ ih =>
      cases added
      rw [List.forall_mem_cons] at hs
      apply ih
      · exact eachSelection_select.mpr ⟨fun _ => hpile, hp⟩
      · exact List.forall_mem_cons.mpr ⟨hs.1, hpile⟩
      · exact hs.2

theorem Sunk.packed (h : Sunk p f q g) : q.EachSelection fun _ => Packed := by
  induction h with
  | scan stacked =>
      apply packed_stacked stacked eachSelection_scan (List.forall_mem_nil _)
      intro x hx
      exact (Floating.mem_taken.mp hx).2
  | kept _ own _ input ih =>
      refine eachSelection_select.mpr ⟨fun ha => ?_, ih⟩
      exact absurd (input.absorbs_eq ▸ ha) (input.free own)
  | landed _ _ _ _ ih => exact ih
  | project _ ih => exact eachSelection_project.mpr ih
  | @pair _ _ op l r l' r' _ _ _ u _ j _ e' _ _ h binary _ _ _ left _ right output stacked
      ihl ihr =>
      have hbase : (Plan.mk op [l', r'] j e').base = ⟨op, [l', r'], j, e'⟩ := base_binary binary
      have hcols : u.columns = l'.columns ++ r'.columns := by
        rw [output, left.columns, right.columns]
      apply packed_stacked stacked (eachSelection_binary.mpr ⟨ihl, ihr⟩)
      · rw [pile_binary binary]
        exact List.forall_mem_nil _
      · intro x hx
        rw [hbase, ← covered_eq_takes binary hcols]
        exact (Floating.mem_taken.mp hx).2

/-- The predicate stands where it will be taken again, or where no node takes it. -/
def Bedded (predicate : Predicate) (p : Plan) : Prop :=
  Settled predicate p ∧ Packed predicate p

theorem Sunk.bedded (h : Sunk p f q g) : q.EachSelection fun _ => Bedded :=
  h.settled.and h.packed

theorem absorbs_of_base (h : takes p.base predicate) : absorbs p predicate :=
  List.any_eq_true.mpr ⟨p.base, base_mem_preorder, h⟩

theorem bedded_of_free (h : ¬ absorbs p predicate) : Bedded predicate p :=
  ⟨fun ha => absurd ha h, fun ha => absurd ha h⟩

namespace Bedded

theorem select {x : Predicate} (h : Bedded predicate ⟨.select x, [q], i, e⟩) :
    Bedded predicate q := by
  rw [Bedded, Settled, Packed, absorbs_unary rfl] at h
  exact ⟨h.1, fun ha y hy => h.2 ha y (List.mem_cons_of_mem _ hy)⟩

/-- Nothing that stands on the way is left behind. -/
theorem absorbs {x : Predicate} (h : Bedded predicate ⟨.select x, [q], i, e⟩)
    (ha : absorbs q predicate) : PushSelects.absorbs q x := by
  rw [Bedded, Packed, absorbs_unary rfl] at h
  exact absorbs_of_base (h.2 ha x List.mem_cons_self)

theorem project {cs : List Column} (h : Bedded predicate ⟨.project cs, [q], i, e⟩) :
    ¬ PushSelects.absorbs q predicate := by
  intro ha
  rw [Bedded, Settled, absorbs_unary rfl] at h
  cases (h.1 ha).1

theorem binary (ho : op.arity = 2) (h : Bedded predicate ⟨op, [l, r], i, e⟩) :
    ¬ PushSelects.absorbs l predicate ∧ ¬ PushSelects.absorbs r predicate := by
  rw [Bedded, Settled, base_binary ho] at h
  refine ⟨fun ha => ?_, fun ha => ?_⟩
  · have hp : PushSelects.absorbs ⟨op, [l, r], i, e⟩ predicate := by simp [absorbs_binary, ha]
    exact (h.1 hp).2 l List.mem_cons_self ha
  · have hp : PushSelects.absorbs ⟨op, [l, r], i, e⟩ predicate := by simp [absorbs_binary, ha]
    exact (h.1 hp).2 r (List.mem_cons_of_mem _ List.mem_cons_self) ha

theorem add {x : Predicate} {j : NodeId}
    (h : ∀ y ∈ f.predicates, Bedded y ⟨.select x, [q], i, e⟩) (hx : Bedded x q) :
    ∀ y ∈ (f.add j x).predicates, Bedded y q := by
  intro y hy
  rw [Floating.predicates_add, List.mem_append, List.mem_singleton] at hy
  obtain hy | rfl := hy
  · exact (h y hy).select
  · exact hx

end Bedded

/-- What no node takes, the node below does not turn over. -/
theorem turn_of_free (hc : predicate.columns ⊆ p.columns) (hn : ¬ absorbs p predicate)
    (run : List Predicate) :
    p.base.operator.turn (run ++ [predicate]) = p.base.operator.turn run ++ [predicate] := by
  have ht : ¬ takes p.base predicate := fun ht => hn (absorbs_of_base ht)
  rw [← columns_base] at hc
  generalize p.base = x at hc ht
  obtain ⟨op, ps, i, e⟩ := x
  cases op with
  | scan r =>
      have hv : ¬ predicate.isEqualsValue := by
        cases predicate with
        | equalsValue c v => exact absurd (decide_eq_true (hc List.mem_cons_self)) ht
        | equalsColumn a b => simp [Predicate.isEqualsValue]
      obtain ⟨ps, qs, rfl, hp, hq⟩ := exists_turn_scan run
      have hq' : ∀ q ∈ (qs ++ [predicate]).head?, ¬ q.isEqualsValue := by
        cases qs with
        | nil => simpa using hv
        | cons q qs => simpa using hq
      rw [List.append_assoc, turn_scan hp hq', turn_scan hp hq, List.append_assoc]
  | product | join _ => exact absurd (decide_eq_true hc) ht
  | select _ | project _ => rfl

/-- Pushed down once more, a plan comes back flipped. -/
theorem Sunk.skeleton_eq (h : Sunk p f q g) (hp : p.EachSelection fun _ => Bedded)
    (hf : ∀ predicate ∈ f.predicates, Bedded predicate p) :
    q.skeleton = p.flippedBelow (f.taken (absorbs p)).reverse := by
  induction h with
  | @scan _ _ r i e f _ stacked =>
      have hv : ∀ x ∈ (f.taken (scanTakes r)).reverse, x.isEqualsValue := by
        intro x hx
        have ht := (Floating.mem_taken.mp (List.mem_reverse.mp hx)).2
        exact (Bool.and_eq_true_iff.mp ht).1
      rw [skeleton_stacked stacked, skeleton_leaf, absorbs_scan, flippedBelow_scan,
        turn_scan_of_all hv, List.reverse_reverse]
  | @kept predicate q q' i j e e' f g covered own rest input ih =>
      obtain ⟨hx, hq⟩ := eachSelection_select.mp hp
      have hfree := input.free own
      -- Were anything taken from above, this selection would be, too.
      have hnone : f.taken (absorbs q) = [] :=
        Floating.taken_eq_nil fun y hy ha => hfree ((hf y hy).absorbs ha)
      have hq' := ih hq (Bedded.add hf hx)
      rw [Floating.taken_add, hnone, if_neg hfree] at hq'
      rw [absorbs_unary rfl, hnone, skeleton_unary, hq', flippedBelow_select]
      exact (flippedBelow_concat (turn_of_free covered hfree)).symm
  | @landed predicate q q' i e f g covered own rest input ih =>
      obtain ⟨hx, hq⟩ := eachSelection_select.mp hp
      have hq' := ih hq (Bedded.add hf hx)
      rw [Floating.taken_add, if_pos (input.taken own rest), List.reverse_append] at hq'
      rw [absorbs_unary rfl, flippedBelow_select]
      exact hq'
  | @project cs q q' i j e e' f g input ih =>
      have hfree : ∀ x ∈ f.predicates, ¬ absorbs q x := fun x hx => (hf x hx).project
      have hq' := ih (eachSelection_project.mp hp) fun x hx => bedded_of_free (hfree x hx)
      rw [Floating.taken_eq_nil hfree] at hq'
      rw [absorbs_unary rfl, Floating.taken_eq_nil hfree, skeleton_unary, hq',
        List.reverse_nil, flippedBelow_project]
      rfl
  | @pair _ _ op l r l' r' _ _ _ u i j e e' f g h binary onLeft onRight restLeft left restRight
      right output stacked ihl ihr =>
      obtain ⟨hpl, hpr⟩ := eachSelection_binary.mp hp
      have hl : ∀ x ∈ f.predicates, ¬ absorbs l x := fun x hx => ((hf x hx).binary binary).1
      have hr : ∀ x ∈ f.predicates, ¬ absorbs r x := fun x hx => ((hf x hx).binary binary).2
      obtain rfl : g = f := left.rest.trans (Floating.untaken_eq_self hl)
      obtain rfl : h = g := right.rest.trans (Floating.untaken_eq_self hr)
      have hl' := ihl hpl fun x hx => bedded_of_free (hl x hx)
      have hr' := ihr hpr fun x hx => bedded_of_free (hr x hx)
      rw [Floating.taken_eq_nil hl] at hl'
      rw [Floating.taken_eq_nil hr] at hr'
      have htaken : h.taken (absorbs ⟨op, [l, r], i, e⟩) = h.taken (takes ⟨op, [l, r], i, e⟩) := by
        apply Floating.taken_congr
        intro x hx
        simp [absorbs_binary, hl x hx, hr x hx]
      rw [skeleton_stacked stacked, skeleton_binary, hl', hr', htaken,
        covered_eq_takes (i := i) (e := e) binary output, flippedBelow_binary binary,
        List.reverse_reverse]
      rfl

theorem length_le_of_nodup {is : List NodeId} (h : is.Nodup) : is.length ≤ 2 ^ 32 := by
  have hmap : (is.map UInt32.toNat).Nodup := h.map fun _ _ => UInt32.toNat_inj.mp
  have hsub : is.map UInt32.toNat ⊆ List.range (2 ^ 32) := by
    intro k hk
    obtain ⟨i, _, rfl⟩ := List.mem_map.mp hk
    exact List.mem_range.mpr i.toNat_lt
  have hle := (List.subperm_of_subset hmap hsub).length_le
  rwa [List.length_map, List.length_range] at hle

/-- What a pass asks of a plan, and what it leaves. Scans keep their numbers, so that new nodes
may come by the same ones; but there are not more new nodes than numbers. -/
structure Repeatable (p : Plan) : Prop where
  estimated : ∃ s, p.Estimated s
  distinct : p.DistinctColumns
  apart : p.innerIds.Nodup
  few : p.ids.length ≤ 2 ^ 32

theorem Repeatable.pass (h : Repeatable p) (x : Progress) :
    ∃ q y, Returns (run p) x q y ∧ Sunk p [] q [] ∧ Repeatable q := by
  obtain ⟨s, hp⟩ := h.estimated
  obtain ⟨q, y, hq⟩ := succeeds_run hp h.distinct x
  have pushed := pushed_of_run hq
  have hinner := pushed.innerIds_eq hp
  have hlength : q.ids.length = p.ids.length := by
    simpa using pushed.tally_add tally_ids hp
  refine ⟨q, y, hq, pushed.sunk_of_inner hp h.apart, pushed.estimated hp,
    h.distinct.of_scans (.of_eq (pushed.scans hp)), ?_, hlength ▸ h.few⟩
  have hissued : q.innerIds.length = y.issued - x.issued := by
    simpa [numbers] using congrArg Multiset.card hinner
  have hinside := q.innerIds_sublist.length_le
  have hfew := h.few
  rw [← Multiset.coe_nodup, hinner]
  apply numbers_nodup
  omega

/-- Pushing down again what has been pushed down reverses the comparisons with constants directly
above each scan and the selections directly above each product or join, and moves nothing else.
Doing so once more gives the plan of the first time back. -/
theorem run_flips (hp : p.Consistent) (hi : p.DistinctIds) (hd : p.DistinctColumns)
    (x : Progress) :
    ∃ q₁ x', Returns (run p) x q₁ x' ∧
      ∀ y, ∃ q₂ y', Returns (run q₁) y q₂ y' ∧ q₁.flipped.reestimate = .ok q₂.unnumbered ∧
        ∀ z, ∃ q₃ z', Returns (run q₂) z q₃ z' ∧ q₃.same q₁ := by
  have first : Repeatable p :=
    ⟨hp.estimated, hd, hi.sublist p.innerIds_sublist, length_le_of_nodup hi⟩
  obtain ⟨q₁, x', h₁, sunk₁, second⟩ := first.pass x
  refine ⟨q₁, x', h₁, fun y => ?_⟩
  obtain ⟨q₂, y', h₂, sunk₂, third⟩ := second.pass y
  obtain ⟨_, hq₁⟩ := second.estimated
  obtain ⟨_, hq₂⟩ := third.estimated
  have hflip : q₂.skeleton = q₁.flipped := sunk₂.skeleton_eq sunk₁.bedded (List.forall_mem_nil _)
  refine ⟨q₂, y', h₂, hflip ▸ hq₂.reestimate_skeleton, fun z => ?_⟩
  obtain ⟨q₃, z', h₃, sunk₃, last⟩ := third.pass z
  obtain ⟨_, hq₃⟩ := last.estimated
  have hback : q₃.skeleton = q₁.skeleton := by
    calc q₃.skeleton = q₂.flipped := sunk₃.skeleton_eq sunk₂.bedded (List.forall_mem_nil _)
      _ = q₂.skeleton.flipped := (flippedBelow_skeleton hq₂).symm
      _ = q₁.flipped.flipped := by rw [hflip]
      _ = q₁.skeleton := flipped_flipped hq₁
  exact ⟨q₃, z', h₃, (same_iff q₃ q₁).mpr (hq₁.unnumbered_eq hq₃ hback)⟩

def heaped : Plan :=
  ⟨.select (.equalsColumn ⟨"x"⟩ ⟨"y"⟩), [⟨.select (.equalsColumn ⟨"w"⟩ ⟨"z"⟩), [⟨.product,
    [⟨.select (.equalsValue ⟨"x"⟩ "1"), [⟨.select (.equalsColumn ⟨"x"⟩ ⟨"w"⟩),
      [⟨.select (.equalsValue ⟨"w"⟩ "2"), [⟨.scan ⟨"r", ⟨64, [⟨⟨"x"⟩, 4⟩, ⟨⟨"w"⟩, 2⟩]⟩⟩, [], 1,
          some ⟨64, [⟨⟨"x"⟩, 4⟩, ⟨⟨"w"⟩, 2⟩]⟩⟩],
        2, some ⟨32, [⟨⟨"x"⟩, 4⟩, ⟨⟨"w"⟩, 1⟩]⟩⟩],
      3, some ⟨8, [⟨⟨"x"⟩, 1⟩, ⟨⟨"w"⟩, 1⟩]⟩⟩], 4, some ⟨8, [⟨⟨"x"⟩, 1⟩, ⟨⟨"w"⟩, 1⟩]⟩⟩,
      ⟨.scan ⟨"s", ⟨27, [⟨⟨"y"⟩, 3⟩, ⟨⟨"z"⟩, 3⟩]⟩⟩, [], 5, some ⟨27, [⟨⟨"y"⟩, 3⟩, ⟨⟨"z"⟩, 3⟩]⟩⟩],
    6, some ⟨216, [⟨⟨"x"⟩, 1⟩, ⟨⟨"w"⟩, 1⟩, ⟨⟨"y"⟩, 3⟩, ⟨⟨"z"⟩, 3⟩]⟩⟩],
    7, some ⟨72, [⟨⟨"x"⟩, 1⟩, ⟨⟨"w"⟩, 1⟩, ⟨⟨"y"⟩, 3⟩, ⟨⟨"z"⟩, 1⟩]⟩⟩],
    8, some ⟨24, [⟨⟨"x"⟩, 1⟩, ⟨⟨"w"⟩, 1⟩, ⟨⟨"y"⟩, 1⟩, ⟨⟨"z"⟩, 1⟩]⟩⟩

theorem run_flips_heaped :
    ∃ q₁ x', Returns (run heaped) .start q₁ x' ∧
      ∀ y, ∃ q₂ y', Returns (run q₁) y q₂ y' ∧ q₁.flipped.reestimate = .ok q₂.unnumbered ∧
        ∀ z, ∃ q₃ z', Returns (run q₂) z q₃ z' ∧ q₃.same q₁ := by
  have hp : heaped.Estimated
      ⟨24, [⟨⟨"x"⟩, 1⟩, ⟨⟨"w"⟩, 1⟩, ⟨⟨"y"⟩, 1⟩, ⟨⟨"z"⟩, 1⟩]⟩ :=
    .select 8 (.select 7 (.product 6
      (.select 4 (.select 3 (.select 2 (.scan _ 1) rfl) rfl) rfl) (.scan _ 5)) rfl) rfl
  have hi : heaped.DistinctIds := by
    unfold DistinctIds
    decide
  exact run_flips hp.consistent hi (by decide) .start

end PushSelects
end QueryPlan
