import QueryPlan.Proofs.Links

/-!
Which selections are fused. A run of selections and projections ends at a product, a
join or a scan. Over a product, the equations of the run that span the two inputs are its
candidates; one of them becomes the predicate of a join, its selection disappears, and all
other nodes stay as they are. No candidate is left, so a second time nothing is fused.
-/

namespace QueryPlan

namespace Plan

def ground : Plan → Plan
  | ⟨.select _, [q], _, _⟩ | ⟨.project _, [q], _, _⟩ => ground q
  | p => p

def leading : Plan → Floating
  | ⟨.select predicate, [q], i, _⟩ => ⟨i, predicate⟩ :: leading q
  | ⟨.project _, [q], _, _⟩ => leading q
  | _ => []

/-- The plan, and the inputs of its products and joins: where runs begin. -/
def tops (p : Plan) : List Plan :=
  p :: p.preorder.flatMap fun t => if t.operator.arity = 2 then t.inputs else []

/-- The equations that span the inputs of the product a run ends at, among those above the run
and in it. -/
def candidates (f : Floating) (p : Plan) : Floating :=
  match p.ground with
  | ⟨.product, [l, r], _, _⟩ =>
      (f ++ p.leading).filter fun e => e.predicate.Spans l.columns r.columns
  | _ => []

/-- The candidate whose selection, applied to the product's output, is expected to have the fewest
tuples; of equals the topmost. -/
def chosen (f : Floating) (p : Plan) : Option Floating.Entry :=
  p.ground.estimate.bind fun d =>
    (p.candidates f).argmin fun e => FuseJoins.expected d e.predicate

/-- The skeleton with every product that has candidates a join on the chosen one, and without the
selection that one came from. The first run's choice is given, the other runs make their own. -/
def fused (o : Option Floating.Entry) : Plan → Plan
  | ⟨.select predicate, [q], i, _⟩ =>
      if o = some ⟨i, predicate⟩ then fused o q else ⟨.select predicate, [fused o q], 0, none⟩
  | ⟨.project cs, [q], _, _⟩ => ⟨.project cs, [fused o q], 0, none⟩
  | ⟨.product, [l, r], _, _⟩ =>
      ⟨match o with
        | some e => .join (e.predicate.facing l.columns)
        | none => .product,
        [fused (l.chosen []) l, fused (r.chosen []) r], 0, none⟩
  | ⟨.join predicate, [l, r], _, _⟩ =>
      ⟨.join predicate, [fused (l.chosen []) l, fused (r.chosen []) r], 0, none⟩
  | ⟨op, ps, _, _⟩ => ⟨op, ps, 0, none⟩

section Shapes

variable {op : Operator} {q l r : Plan} {i : NodeId} {e : Option Statistics} {f : Floating}
  {predicate : Predicate}

theorem chosen_select :
    (Plan.mk (.select predicate) [q] i e).chosen f = q.chosen (f.add i predicate) := by
  simp only [chosen, candidates, ground, leading, Floating.add, List.append_assoc,
    List.singleton_append]

theorem chosen_project {cs : List Column} :
    (Plan.mk (.project cs) [q] i e).chosen f = q.chosen f :=
  rfl

theorem candidates_valued (h : predicate.isEqualsValue) :
    q.candidates (f.add i predicate) = q.candidates f := by
  unfold candidates
  split
  · have hn (xs ys : List Column) : ¬ predicate.Spans xs ys := fun hs => by
      simp [hs.isEqualsValue_eq] at h
    simp only [Floating.add, List.filter_append, List.filter_cons, hn, decide_false,
      List.filter_nil, Bool.false_eq_true, if_false, List.append_nil]
  · rfl

theorem chosen_valued (h : predicate.isEqualsValue) :
    (Plan.mk (.select predicate) [q] i e).chosen f = q.chosen f := by
  rw [chosen_select, chosen, candidates_valued h, chosen]

theorem chosen_product {d s t : Statistics} (hl : l.Estimated s) (hr : r.Estimated t) :
    (Plan.mk .product [l, r] i (some d)).chosen f = FuseJoins.choice d s t f := by
  simp only [chosen, candidates, ground, leading, List.append_nil, Option.bind_some,
    FuseJoins.choice, Predicate.links_iff, hl.columns_eq, hr.columns_eq]

theorem chosen_join : (Plan.mk (.join predicate) [l, r] i e).chosen f = none := by
  cases e <;> rfl

theorem chosen_scan {b : BaseRelation} : (Plan.mk (.scan b) [] i e).chosen f = none := by
  cases e <;> rfl

end Shapes

section Candidates

variable {p l r : Plan} {f : Floating} {c : Floating.Entry}

theorem mem_candidates_of_chosen (h : p.chosen f = some c) : c ∈ p.candidates f := by
  obtain ⟨d, _, hc⟩ := Option.bind_eq_some_iff.mp h
  exact List.argmin_mem hc

theorem spans_of_mem_candidates {i : NodeId} {e : Option Statistics}
    (hp : p.ground = ⟨.product, [l, r], i, e⟩) (hc : c ∈ p.candidates f) :
    c.predicate.Spans l.columns r.columns := by
  rw [candidates, hp] at hc
  exact of_decide_eq_true (List.mem_filter.mp hc).2

theorem not_chosen_of_isEqualsValue {i : NodeId} {predicate : Predicate}
    (h : predicate.isEqualsValue) : p.chosen f ≠ some ⟨i, predicate⟩ := by
  intro hc
  have hm := mem_candidates_of_chosen hc
  unfold candidates at hm
  split at hm
  · have hs := of_decide_eq_true (List.mem_filter.mp hm).2
    simp [Predicate.Spans.isEqualsValue_eq hs] at h
  · cases hm

theorem ground_mem_preorder : p.ground ∈ p.preorder := by
  fun_induction ground p with
  | case1 _ q _ _ ih | case2 _ q _ _ ih =>
      exact mem_preorder_of_input (List.mem_singleton_self q) ih
  | case3 p _ _ => exact mem_preorder_self p

theorem chosen_eq_none {s : Statistics} (hp : p.Estimated s) :
    p.chosen f = none ↔ p.candidates f = [] := by
  obtain ⟨⟨d, hd⟩, _⟩ := hp.of_mem ground_mem_preorder
  rw [chosen, hd.estimate_eq, Option.bind_some, List.argmin_eq_none]

theorem ground_fused {o : Option Floating.Entry} : (p.fused o).ground = p.ground.fused o := by
  fun_induction ground p with
  | case1 predicate q i e ih =>
      rw [Plan.fused]
      split
      · exact ih
      · rw [ground, ih]
  | case2 cs q i e ih => rw [Plan.fused, ground, ih]
  | case3 p hs hp =>
      unfold Plan.fused
      split
      · exact (hs _ _ _ _ rfl).elim
      · exact (hp _ _ _ _ rfl).elim
      · cases o <;> rfl
      · rfl
      · unfold ground
        split <;> simp_all

theorem tops_subset : p.tops ⊆ p.preorder := by
  intro t ht
  obtain rfl | ht := List.mem_cons.mp ht
  · exact mem_preorder_self t
  · obtain ⟨x, hx, ht⟩ := List.mem_flatMap.mp ht
    split at ht
    · exact preorder_subset p hx (mem_preorder_of_input ht (mem_preorder_self t))
    · cases ht

end Candidates

end Plan

namespace FuseJoins

open Planner Plan

variable {n m : Nat} {p q : Plan} {f g : Floating} {s : Statistics}

/-- What fusing makes of a plan, and what it leaves of the equations above it: all but the chosen
one, which may be from above or from the run itself. -/
theorem Fused.skeleton_eq (h : Fused n p f m q g) (hp : p.Estimated s) (ha : f.Apart p.ids) :
    q.skeleton = p.fused (p.chosen f) ∧ ∀ e, e ∈ g ↔ e ∈ f ∧ p.chosen f ≠ some e := by
  induction h generalizing s with
  | scan =>
      cases hp with
      | scan _ _ => simp [chosen_scan, skeleton_leaf, Plan.fused]
  | valued value _ added ih =>
      cases added
      rw [ids_unary] at ha
      cases hp with
      | select _ hq _ =>
          obtain ⟨hs, hg⟩ := ih hq ha.input
          rw [chosen_valued value]
          refine ⟨?_, hg⟩
          rw [skeleton_unary, Plan.fused, hs, if_neg (not_chosen_of_isEqualsValue value)]
  | kept input found added ih =>
      cases added
      rw [ids_unary] at ha
      cases hp with
      | select _ hq _ =>
          obtain ⟨hs, hg⟩ := ih hq ha.add
          obtain ⟨rfl, hsub⟩ := Floating.back_of_some (input.sublist ha.add) ha.not_mem found
          -- The entry has come back, so it is not the chosen one.
          obtain ⟨hown, hg⟩ := Floating.mem_of_kept ha.not_mem hsub hg
          rw [chosen_select]
          exact ⟨by rw [skeleton_unary, Plan.fused, hs, if_neg hown], hg⟩
  | gone input gone ih =>
      rw [ids_unary] at ha
      cases hp with
      | select _ hq _ =>
          obtain ⟨hs, hg⟩ := ih hq ha.add
          have hsub := Floating.back_of_none (input.sublist ha.add) ha.not_mem gone
          obtain ⟨hown, hg⟩ := Floating.mem_of_gone ha.not_mem hsub hg
          rw [chosen_select]
          exact ⟨by rw [Plan.fused, if_pos (not_not.mp hown), hs], hg⟩
  | project _ added ih =>
      cases added
      rw [ids_unary] at ha
      cases hp with
      | project _ hq _ =>
          obtain ⟨hs, hg⟩ := ih hq ha.input
          rw [chosen_project]
          exact ⟨by rw [skeleton_unary, Plan.fused, hs], hg⟩
  | unlinked hl hr none left right added ihl ihr =>
      cases added
      rw [ids_binary] at ha
      cases hp with
      | product _ _ _ =>
          rw [chosen_product hl hr, choice_eq_none.mpr none]
          refine ⟨?_, by simp⟩
          rw [skeleton_binary, Plan.fused, (ihl hl ha.inputs.1).1, (ihr hr ha.inputs.2).1]
  | linked hl hr chosen left right output added ihl ihr =>
      cases added
      rw [ids_binary] at ha
      rw [chosen_product hl hr, chosen]
      obtain ⟨_, hl'⟩ := left.known hl
      obtain rfl := Except.ok.inj (hl'.output_eq.symm.trans output)
      refine ⟨?_, fun e => ?_⟩
      · rw [skeleton_binary, Plan.fused, (ihl hl ha.inputs.1).1, (ihr hr ha.inputs.2).1,
          turned_eq_facing (hl'.columns_eq.trans left.columns)]
      · rw [Floating.mem_removed (mem_of_choice chosen).1 (List.Nodup.of_append_left ha), ne_comm,
          ne_eq, ne_eq, Option.some_inj]
  | join left right added ihl ihr =>
      cases added
      rw [ids_binary] at ha
      obtain ⟨_, ⟨_, hl⟩, ⟨_, hr⟩⟩ := hp.binary
      rw [chosen_join, skeleton_binary, Plan.fused, (ihl hl ha.inputs.1).1, (ihr hr ha.inputs.2).1]
      simp

/-- No product of the plan has an equation above it left to fuse with. -/
inductive Spent : List Predicate → Plan → Prop
  | scan {above : List Predicate} {r : BaseRelation} {i : NodeId} {e : Option Statistics} :
      Spent above ⟨.scan r, [], i, e⟩
  | select {above : List Predicate} {predicate : Predicate} {q : Plan} {i : NodeId}
      {e : Option Statistics} (input : Spent (predicate :: above) q) :
      Spent above ⟨.select predicate, [q], i, e⟩
  | project {above : List Predicate} {cs : List Column} {q : Plan} {i : NodeId}
      {e : Option Statistics} (input : Spent above q) : Spent above ⟨.project cs, [q], i, e⟩
  | product {above : List Predicate} {l r : Plan} {i : NodeId} {e : Option Statistics}
      (none : ∀ predicate ∈ above, ¬ predicate.Spans l.columns r.columns) (left : Spent [] l)
      (right : Spent [] r) : Spent above ⟨.product, [l, r], i, e⟩
  | join {above : List Predicate} {predicate : Predicate} {l r : Plan} {i : NodeId}
      {e : Option Statistics} (left : Spent [] l) (right : Spent [] r) :
      Spent above ⟨.join predicate, [l, r], i, e⟩

/-- What fusing leaves of the equations above a plan spans no product of the result. -/
theorem Fused.spent {above : List Predicate} (h : Fused n p f m q g) (hp : p.Estimated s)
    (ha : f.Apart p.ids)
    (hg : ∀ predicate ∈ above, predicate.isEqualsValue ∨ predicate ∈ g.predicates) :
    Spent above q := by
  induction h generalizing s above with
  | scan =>
      cases hp with
      | scan _ _ => exact .scan
  | valued value _ added ih =>
      cases added
      rw [ids_unary] at ha
      cases hp with
      | select _ hq _ =>
          refine .select (ih hq ha.input ?_)
          exact List.forall_mem_cons.mpr ⟨.inl value, hg⟩
  | kept input found added ih =>
      cases added
      rw [ids_unary] at ha
      cases hp with
      | select _ hq _ =>
          obtain ⟨rfl, _⟩ := Floating.back_of_some (input.sublist ha.add) ha.not_mem found
          refine .select (ih hq ha.add (List.forall_mem_cons.mpr ?_))
          rw [Floating.predicates_add]
          refine ⟨.inr (by simp), fun x hx => (hg x hx).imp_right fun hm => ?_⟩
          exact List.mem_append_left _ hm
  | gone _ _ ih =>
      rw [ids_unary] at ha
      cases hp with
      | select _ hq _ => exact ih hq ha.add hg
  | project _ added ih =>
      cases added
      rw [ids_unary] at ha
      cases hp with
      | project _ hq _ =>
          exact .project (ih hq ha.input hg)
  | unlinked hl hr none left right added ihl ihr =>
      cases added
      rw [ids_binary] at ha
      refine .product (fun predicate hm hs => ?_) (ihl hl ha.inputs.1 (List.forall_mem_nil _))
        (ihr hr ha.inputs.2 (List.forall_mem_nil _))
      obtain hv | hf := hg predicate hm
      · simp [hs.isEqualsValue_eq] at hv
      · obtain ⟨x, hx, rfl⟩ := List.mem_map.mp hf
        refine none x hx ?_
        rwa [Predicate.links_iff, hl.columns_eq, hr.columns_eq, ← left.columns, ← right.columns]
  | linked hl hr _ _ _ _ added ihl ihr =>
      cases added
      rw [ids_binary] at ha
      exact .join (ihl hl ha.inputs.1 (List.forall_mem_nil _))
        (ihr hr ha.inputs.2 (List.forall_mem_nil _))
  | join _ _ added ihl ihr =>
      cases added
      rw [ids_binary] at ha
      obtain ⟨_, ⟨_, hl⟩, ⟨_, hr⟩⟩ := hp.binary
      exact .join (ihl hl ha.inputs.1 (List.forall_mem_nil _))
        (ihr hr ha.inputs.2 (List.forall_mem_nil _))

/-- Where no equation is left to fuse with, all operators stay in their places. Two selections may
have one number here, so what comes back is told by the origins alone. -/
theorem Fused.idle {above : List Predicate} (h : Fused n p f m q g) (hp : p.Estimated s)
    (hs : Spent above p) (hf : f.predicates ⊆ above) :
    q.skeleton = p.skeleton ∧ g.origins.Perm f.origins := by
  induction h generalizing s above with
  | scan => exact ⟨rfl, .refl _⟩
  | valued value _ added ih =>
      cases added
      cases hp with
      | select _ hq _ =>
          cases hs with
          | select input =>
              obtain ⟨hq', hg⟩ := ih hq input (List.subset_cons_of_subset _ hf)
              exact ⟨by rw [skeleton_unary, skeleton_unary, hq'], hg⟩
  | kept _ found added ih =>
      cases added
      cases hp with
      | select _ hq _ =>
          cases hs with
          | select input =>
              obtain ⟨hq', hg⟩ := ih hq input (Floating.predicates_add_subset hf)
              obtain ⟨e, rfl, back⟩ := Floating.perm_of_remove? found
              rw [Floating.origins_add] at hg
              refine ⟨by rw [skeleton_unary, skeleton_unary, hq'], ?_⟩
              exact ((back.map _).symm.trans (hg.trans (List.perm_append_singleton _ _))).cons_inv
  | @gone _ _ _ _ _ i _ _ f' _ gone ih =>
      cases hp with
      | select _ hq _ =>
          cases hs with
          | select input =>
              obtain ⟨_, hg⟩ := ih hq input (Floating.predicates_add_subset hf)
              rw [Floating.origins_add] at hg
              obtain ⟨e, he, ho⟩ := List.mem_map.mp (hg.mem_iff.mpr (by simp : i ∈ _ ++ [i]))
              exact absurd ho ((Floating.remove?_eq_none_iff f' i).mp gone e he)
  | project _ added ih =>
      cases added
      cases hp with
      | project _ hq _ =>
          cases hs with
          | project input =>
              obtain ⟨hq', hg⟩ := ih hq input hf
              exact ⟨by rw [skeleton_unary, skeleton_unary, hq'], hg⟩
  | unlinked hl hr _ _ _ added ihl ihr =>
      cases added
      cases hs with
      | product _ left right =>
          rw [skeleton_binary, skeleton_binary, (ihl hl left (List.nil_subset _)).1,
            (ihr hr right (List.nil_subset _)).1]
          exact ⟨rfl, .refl _⟩
  | linked hl hr chosen _ _ _ _ _ _ =>
      cases hs with
      | product none _ _ =>
          obtain ⟨hx, hlinks⟩ := mem_of_choice chosen
          rw [Predicate.links_iff, hl.columns_eq, hr.columns_eq] at hlinks
          exact absurd hlinks (none _ (hf (List.mem_map_of_mem hx)))
  | join _ _ added ihl ihr =>
      cases added
      obtain ⟨_, ⟨_, hl⟩, ⟨_, hr⟩⟩ := hp.binary
      cases hs with
      | join left right =>
          rw [skeleton_binary, skeleton_binary, (ihl hl left (List.nil_subset _)).1,
            (ihr hr right (List.nil_subset _)).1]
          exact ⟨rfl, .refl _⟩

/-- A run over a product with candidates comes to end at a join on one of them, and other runs
over products stay as they are. -/
theorem ground_of_candidates {t l r : Plan} {i : NodeId} {e : Option Statistics}
    (ht : t.Estimated s) (hd : t.DistinctColumns) (hg : t.ground = ⟨.product, [l, r], i, e⟩) :
    ((t.fused (t.chosen [])).ground.operator.isJoin ↔ t.candidates [] ≠ []) ∧
      ∀ c, t.chosen [] = some c → ∃ a ∈ l.columns, ∃ b ∈ r.columns,
        (t.fused (t.chosen [])).ground.operator = .join (.equalsColumn a b) ∧
          (c.predicate = .equalsColumn a b ∨ c.predicate = .equalsColumn b a) := by
  have hcols := ht.distinctOutputs hd _ ground_mem_preorder
  rw [hg, Plan.columns] at hcols
  have hdis := List.disjoint_of_nodup_append hcols
  rw [ground_fused, hg, ne_eq, ← chosen_eq_none ht]
  refine ⟨?_, fun c hc => ?_⟩
  · cases t.chosen [] <;> simp [Plan.fused, Operator.isJoin]
  · have hs := spans_of_mem_candidates hg (mem_candidates_of_chosen hc)
    obtain ⟨a, ha, b, hb, hfacing, hor⟩ := hs.facing_eq hdis
    exact ⟨a, ha, b, hb, by rw [hc, Plan.fused, hfacing], hor⟩

/-- A plan is fused as its runs say. Each product becomes a join if and only if it has candidates,
on the chosen one, each side facing its own input; the selection that one came from disappears and
nothing else changes. A second time nothing changes at all. -/
theorem run_fuses (hp : p.Consistent) (hi : p.DistinctIds) (hd : p.DistinctColumns)
    (x : Progress) :
    ∃ q y, Returns (run p) x q y ∧ q.skeleton = p.fused (p.chosen []) ∧
      (∀ t ∈ p.tops, ∀ l r i e, t.ground = ⟨.product, [l, r], i, e⟩ →
        ((t.fused (t.chosen [])).ground.operator.isJoin ↔ t.candidates [] ≠ []) ∧
        ∀ c, t.chosen [] = some c → ∃ a ∈ l.columns, ∃ b ∈ r.columns,
          (t.fused (t.chosen [])).ground.operator = .join (.equalsColumn a b) ∧
            (c.predicate = .equalsColumn a b ∨ c.predicate = .equalsColumn b a)) ∧
      ∀ w, ∃ r z, Returns (run q) w r z ∧ r.same q := by
  obtain ⟨d, hp⟩ := hp.estimated
  obtain ⟨q, y, h⟩ := succeeds_run hp hd x
  obtain ⟨g, fused⟩ := fused_of_run h hp
  obtain ⟨e, hq⟩ := fused.known hp
  have apart : Floating.Apart [] p.ids := hi
  refine ⟨q, y, h, (fused.skeleton_eq hp apart).1, fun t ht l r i e hg => ?_, fun w => ?_⟩
  · obtain ⟨⟨_, hte⟩, hs⟩ := hp.of_mem (tops_subset ht)
    exact ground_of_candidates hte (hd.sublist (hs.flatMap _)) hg
  · obtain ⟨r, z, h'⟩ := succeeds_run hq (hd.of_scans (.of_eq fused.scans)) w
    obtain ⟨g', fused'⟩ := fused_of_run h' hq
    obtain ⟨_, hr⟩ := fused'.known hq
    have spent : Spent [] q := fused.spent hp apart (List.forall_mem_nil _)
    have hskel := (fused'.idle hq spent (List.nil_subset _)).1
    exact ⟨r, z, h', (same_iff r q).mpr (hq.unnumbered_eq hr hskel)⟩

theorem run_fuses_bushy :
    bushy.chosen [] = some ⟨8, .equalsColumn ⟨"w"⟩ ⟨"z"⟩⟩ ∧
      ∃ q y, Returns (run bushy) .start q y ∧ q.skeleton = bushy.fused (bushy.chosen []) ∧
        (∀ t ∈ bushy.tops, ∀ l r i e, t.ground = ⟨.product, [l, r], i, e⟩ →
          ((t.fused (t.chosen [])).ground.operator.isJoin ↔ t.candidates [] ≠ []) ∧
          ∀ c, t.chosen [] = some c → ∃ a ∈ l.columns, ∃ b ∈ r.columns,
            (t.fused (t.chosen [])).ground.operator = .join (.equalsColumn a b) ∧
              (c.predicate = .equalsColumn a b ∨ c.predicate = .equalsColumn b a)) ∧
        ∀ w, ∃ r z, Returns (run q) w r z ∧ r.same q :=
  ⟨by decide, run_fuses consistent_bushy distinctIds_bushy (by decide) .start⟩

end FuseJoins
end QueryPlan
