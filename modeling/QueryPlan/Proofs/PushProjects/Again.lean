import QueryPlan.Proofs.Consistent
import QueryPlan.Proofs.PushProjects.Run

/-!
Projecting early what has been projected early. The projections of the first time are dropped,
and each lists only columns that are needed where it stands. So below it no more is needed than
was the first time, and every node is cut down to the same columns again.
-/

namespace QueryPlan

namespace Plan

variable {p q : Plan} {s t : Statistics}

theorem Estimated.columns_of_skeleton (hp : p.Estimated s) (hq : q.Estimated t)
    (h : q.skeleton = p.skeleton) : q.columns = p.columns := by
  have hu : q.unnumbered = p.unnumbered := hp.unnumbered_eq hq h
  obtain rfl : t = s := hq.unnumbered.unique (hu ▸ hp.unnumbered)
  rw [← hq.columns_eq, hp.columns_eq]

end Plan

namespace Planner

open Plan

variable {n : Nat} {op : Operator} {p q l r l' r' q' : Plan} {i : NodeId} {e : Option Statistics}

theorem Added.skeleton_unary (h : Added n op [q'] p) (hq : q'.skeleton = q.skeleton) :
    p.skeleton = (Plan.mk op [q] i e).skeleton := by
  cases h
  rw [Plan.skeleton_unary, hq, Plan.skeleton_unary]

theorem Added.skeleton_binary (h : Added n op [l', r'] p) (hl : l'.skeleton = l.skeleton)
    (hr : r'.skeleton = r.skeleton) : p.skeleton = (Plan.mk op [l, r] i e).skeleton := by
  cases h
  rw [Plan.skeleton_binary, hl, hr, Plan.skeleton_binary]

end Planner

namespace PushProjects

open Planner Plan

variable {needed needed' cs : List Column} {n m n' m' : Nat} {b b' p q r : Plan}

theorem filter_of_mem_iff (hn : ∀ c, c ∈ needed' ↔ c ∈ needed) (ds : List Column) :
    ds.filter (· ∈ needed') = ds.filter (· ∈ needed) :=
  List.filter_congr fun c _ => decide_eq_decide.mpr (hn c)

theorem Trimmed.congr (h : Trimmed needed n p m q) (hn : ∀ c, c ∈ needed' ↔ c ∈ needed) :
    Trimmed needed' n p m q := by
  cases h with
  | same whole =>
      apply Trimmed.same
      obtain whole | whole := whole
      · exact .inl fun c hc hm => whole c hc ((hn c).mp hm)
      · exact .inr fun c hc => (hn c).mpr (whole hc)
  | cut some dropped added =>
      obtain ⟨c, hc, hm⟩ := some
      obtain ⟨d, hd, hdn⟩ := dropped
      rw [← filter_of_mem_iff hn] at added
      exact .cut ⟨c, hc, (hn c).mpr hm⟩ ⟨d, hd, fun h => hdn ((hn d).mp h)⟩ added

theorem Pruned.congr (h : Pruned needed n p m q) (hn : ∀ c, c ∈ needed' ↔ c ∈ needed) :
    Pruned needed' n p m q := by
  have grown {ds needed needed' : List Column} (hn : ∀ c, c ∈ needed' ↔ c ∈ needed) :
      ∀ c, c ∈ needed' ++ ds ↔ c ∈ needed ++ ds := by
    intro c
    rw [List.mem_append, List.mem_append, hn c]
  induction h generalizing needed' with
  | scan trimmed => exact .scan (trimmed.congr hn)
  | select _ added known trimmed ih => exact .select (ih (grown hn)) added known (trimmed.congr hn)
  | project _ ih => exact .project (ih (grown hn))
  | pair binary _ _ added known trimmed ihl ihr =>
      exact .pair binary (ihl (grown hn)) (ihr (grown hn)) added known (trimmed.congr hn)

/-- The projection put on top is dropped again, and below it no more is needed. -/
theorem Trimmed.pruned_below (h : Trimmed needed n b m q) (h' : Pruned needed n' q m' r) :
    Pruned needed n' b m' r := by
  cases h with
  | same _ => exact h'
  | cut _ _ added =>
      cases added
      cases h' with
      | project input =>
          refine input.congr fun c => ?_
          rw [List.mem_append]
          refine ⟨.inl, fun hc => hc.elim id fun hm => ?_⟩
          exact of_decide_eq_true (List.mem_filter.mp hm).2

/-- Below a projection at the root, all that it shows is needed without being asked for. -/
theorem Pruned.of_shown (h : Pruned [] n p m q) (ho : p.operator.columns? ≠ none)
    (hc : cs ⊆ p.columns) : Pruned cs n p m q := by
  cases h with
  | project input =>
      refine .project (input.congr fun c => ?_)
      rw [List.nil_append, List.mem_append]
      refine ⟨fun hm => hm.elim (fun hm => ?_) id, .inr⟩
      exact of_decide_eq_true (List.mem_filter.mp (hc hm)).2
  | scan _ | select _ _ _ _ => exact absurd rfl ho
  | pair binary _ _ _ _ _ =>
      obtain rfl | ⟨_, rfl⟩ := product_or_join binary
      all_goals exact absurd rfl ho

theorem not_whole (some : ∃ c ∈ p.columns, c ∈ needed) (dropped : ∃ c ∈ p.columns, c ∉ needed) :
    ¬ ((∀ c ∈ p.columns, c ∉ needed) ∨ p.columns ⊆ needed) := by
  obtain ⟨c, hc, hn⟩ := some
  obtain ⟨d, hd, hx⟩ := dropped
  exact fun whole => whole.elim (fun h => h c hc hn) fun h => hx (h hd)

theorem Trimmed.skeleton_eq (h : Trimmed needed n b m q) (h' : Trimmed needed n' b' m' r)
    (hs : b'.skeleton = b.skeleton) (hc : b'.columns = b.columns) : r.skeleton = q.skeleton := by
  cases h with
  | same whole =>
      cases h' with
      | same _ => exact hs
      | cut some dropped _ => exact absurd (hc ▸ whole) (not_whole some dropped)
  | cut some dropped added =>
      cases h' with
      | same whole => exact absurd (hc ▸ whole) (not_whole some dropped)
      | cut _ _ added' =>
          cases added
          rw [hc] at added'
          exact added'.skeleton_unary hs

theorem Trimmed.skeleton_eq_of_estimated {s t : Statistics} (h : Trimmed needed n b m q)
    (hb : b.Estimated s) (h' : Trimmed needed n' b' m' r) (hb' : b'.Estimated t)
    (hs : b'.skeleton = b.skeleton) : r.skeleton = q.skeleton :=
  h.skeleton_eq h' hs (hb.columns_of_skeleton hb' hs)

/-- Pruned once more for what it has been pruned for, a plan stays as it is. -/
theorem Pruned.skeleton_eq (h : Pruned needed n p m q) (hf : p.ProjectFree)
    (h' : Pruned needed n' q m' r) : r.skeleton = q.skeleton := by
  induction h generalizing n' m' r with
  | scan trimmed =>
      cases trimmed.pruned_below h' with
      | scan trimmed' => exact trimmed.skeleton_eq trimmed' rfl rfl
  | select _ added known trimmed ih =>
      cases added
      cases trimmed.pruned_below h' with
      | select input' added' known' trimmed' =>
          have input := ih hf.unary input'
          exact trimmed.skeleton_eq_of_estimated known trimmed' known'
            (added'.skeleton_unary input)
  | project _ _ => exact absurd hf not_projectFree_project
  | pair _ _ _ added known trimmed ihl ihr =>
      cases added
      cases trimmed.pruned_below h' with
      | pair _ left' right' added' known' trimmed' =>
          have left := ihl hf.binary.1 left'
          have right := ihr hf.binary.2 right'
          exact trimmed.skeleton_eq_of_estimated known trimmed' known'
            (added'.skeleton_binary left right)

section Run

variable {x y z z' : Progress} {s : Statistics}

theorem skeleton_of_run_run (h : Returns (run p) x q y) (h' : Returns (run q) z r z')
    (hp : p.Estimated s) (hin : ∀ x ∈ p.inputs, x.ProjectFree) (hd : p.DistinctColumns) :
    r.skeleton = q.skeleton := by
  obtain ⟨_, hq⟩ := (renewed_of_run h hp).known
  by_cases hb : q.operator.columns? = none
  · rw [run_bare hb] at h'
    obtain ⟨rfl, _⟩ := returns_pure.mp h'
    rfl
  · obtain ⟨rfl, _⟩ | again := pruned_of_run h' hq
    · rfl
    · cases hp with
      | @project b t _ cs i hbe he =>
          have hused : cs ⊆ b.columns := Estimated.used_unary (.project i hbe he)
          have input : Pruned cs x.issued b y.issued q := pruned_of_returns hbe h
          have hc : cs ⊆ q.columns := fun c hm =>
            (input.columns hbe hd.unary (shows_of_subset hused) hm).mpr (hused hm)
          exact input.skeleton_eq (hin b (List.mem_singleton_self b)) (again.of_shown hb hc)
      | scan _ _ | select _ _ _ | product _ _ _ | join _ _ _ _ =>
          obtain ⟨rfl, _⟩ := returns_pure.mp h
          exact absurd rfl hb

/-- Projecting early what has been projected early gives the same plan again, whether there is
a projection left at its root or not. -/
theorem run_same_again (hp : p.Consistent) (hin : ∀ x ∈ p.inputs, x.ProjectFree)
    (hd : p.DistinctColumns) (x : Progress) :
    ∃ q y, Returns (run p) x q y ∧ q.Consistent ∧
      ∀ z, ∃ r z', Returns (run q) z r z' ∧ r.same q := by
  obtain ⟨_, hp⟩ := hp.estimated
  obtain ⟨q, y, h⟩ : Succeeds (run p) x := succeeds_run hp hd x
  have renewed := renewed_of_run h hp
  obtain ⟨_, hq⟩ := renewed.known
  refine ⟨q, y, h, hq.consistent, fun z => ?_⟩
  obtain ⟨r, z', h'⟩ : Succeeds (run q) z := succeeds_run hq (hd.of_scans renewed.scans) z
  obtain ⟨_, hr⟩ := (renewed_of_run h' hq).known
  have hs := skeleton_of_run_run h h' hp hin hd
  exact ⟨r, z', h', (same_iff r q).mpr (hq.unnumbered_eq hr hs)⟩

end Run

def sliced : Plan :=
  ⟨.project [⟨"x"⟩], [⟨.select (.equalsValue ⟨"w"⟩ "1"), [⟨.join (.equalsColumn ⟨"x"⟩ ⟨"y"⟩),
    [⟨.scan ⟨"r", ⟨8, [⟨⟨"x"⟩, 4⟩, ⟨⟨"w"⟩, 2⟩, ⟨⟨"v"⟩, 8⟩]⟩⟩, [], 1,
        some ⟨8, [⟨⟨"x"⟩, 4⟩, ⟨⟨"w"⟩, 2⟩, ⟨⟨"v"⟩, 8⟩]⟩⟩,
      ⟨.scan ⟨"s", ⟨6, [⟨⟨"y"⟩, 3⟩, ⟨⟨"k"⟩, 2⟩]⟩⟩, [], 2, some ⟨6, [⟨⟨"y"⟩, 3⟩, ⟨⟨"k"⟩, 2⟩]⟩⟩],
    3, some ⟨12, [⟨⟨"x"⟩, 3⟩, ⟨⟨"w"⟩, 2⟩, ⟨⟨"v"⟩, 8⟩, ⟨⟨"y"⟩, 3⟩, ⟨⟨"k"⟩, 2⟩]⟩⟩],
    4, some ⟨6, [⟨⟨"x"⟩, 3⟩, ⟨⟨"w"⟩, 1⟩, ⟨⟨"v"⟩, 8⟩, ⟨⟨"y"⟩, 3⟩, ⟨⟨"k"⟩, 2⟩]⟩⟩],
  5, some ⟨6, [⟨⟨"x"⟩, 3⟩]⟩⟩

/-- Besides the one at the root, the first run places three projections. -/
theorem run_same_again_sliced :
    ∃ q y, Returns (run sliced) .start q y ∧ q.operator = .project [⟨"x"⟩] ∧ q.size = 8 ∧
      ∀ z, ∃ r z', Returns (run q) z r z' ∧ r.same q := by
  have hp : sliced.Estimated ⟨6, [⟨⟨"x"⟩, 3⟩]⟩ :=
    .project 5 (.select 4 (.join 3 (.scan _ 1) (.scan _ 2) rfl) rfl) rfl
  obtain ⟨q, y, h, _, again⟩ :=
    run_same_again hp.consistent (by decide) (by decide) .start
  obtain ⟨_, _, hrun, root, size⟩ : ∃ q y, Returns (run sliced) .start q y ∧
      q.operator = .project [⟨"x"⟩] ∧ q.size = 8 := ⟨_, _, rfl, rfl, rfl⟩
  obtain ⟨rfl, rfl⟩ := h.unique hrun
  exact ⟨q, _, h, root, size, again⟩

end PushProjects
end QueryPlan
