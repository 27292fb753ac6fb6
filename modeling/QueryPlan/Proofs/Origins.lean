import QueryPlan.Proofs.FuseJoins.Fused
import QueryPlan.Proofs.PushSelects.Pushed

/-!
The lists of floating predicates that the rules come by. `PushSelects` and
`FuseJoins` tell entries apart by the numbers of the selections they come from, so
no list that they meet may hold a number twice. What a rule meets is defined from
the parts of its walk that have come to an end, whether or not the walk does.
-/

namespace QueryPlan

open Planner Plan

namespace PushSelects

/-- Pushing the first list into the plan comes by the second, entering a node or leaving it. -/
inductive Meets : Plan → Floating → Floating → Prop
  | entered {p : Plan} {f : Floating} : Meets p f f
  | left {p : Plan} {f : Floating} {x : Plan × Floating} {s t : Progress}
      (pushed : Returns (push p f) s x t) : Meets p f x.2
  | select {predicate : Predicate} {q : Plan} {qs : List Plan} {i : NodeId}
      {e : Option Statistics} {f g : Floating} (input : Meets q (f.add i predicate) g) :
      Meets ⟨.select predicate, q :: qs, i, e⟩ f g
  | project {cs : List Column} {q : Plan} {qs : List Plan} {i : NodeId}
      {e : Option Statistics} {f g : Floating} (input : Meets q f g) :
      Meets ⟨.project cs, q :: qs, i, e⟩ f g
  | onLeft {op : Operator} {l : Plan} {qs : List Plan} {i : NodeId} {e : Option Statistics}
      {f g : Floating} (binary : op.arity = 2) (input : Meets l f g) :
      Meets ⟨op, l :: qs, i, e⟩ f g
  | onRight {op : Operator} {l r : Plan} {qs : List Plan} {i : NodeId} {e : Option Statistics}
      {f g : Floating} {x : Plan × Floating} {s t : Progress} (binary : op.arity = 2)
      (pushed : Returns (push l f) s x t) (input : Meets r x.2 g) :
      Meets ⟨op, l :: r :: qs, i, e⟩ f g

theorem Meets.nodup {p : Plan} {f g : Floating} {s : Statistics} (h : Meets p f g)
    (hp : p.Estimated s) (ha : f.Apart p.ids) : g.origins.Nodup := by
  induction h generalizing s with
  | entered => exact ha.of_append_left
  | left pushed =>
      have hs := (pushed_of_returns pushed).sublist hp ha
      exact (hs.map _).nodup ha.of_append_left
  | select _ ih =>
      cases hp with
      | select _ hq _ =>
          rw [ids_unary] at ha
          exact ih hq ha.add
  | project _ ih =>
      cases hp with
      | project _ hq _ => exact ih hq (ha.mono (.refl _) (by simp))
  | onLeft binary _ ih =>
      obtain ⟨l, r, heq, ⟨_, hl⟩, _⟩ := hp.sides binary
      cases heq
      exact ih hl (ha.mono (.refl _) (by simp))
  | onRight binary pushed _ ih =>
      obtain ⟨rfl, ⟨_, hl⟩, ⟨_, hr⟩⟩ := hp.binary
      -- what the left input leaves afloat is apart from the numbers on the right
      have hs := (pushed_of_returns pushed).sublist hl (ha.mono (.refl _) (by simp))
      exact ih hr (ha.mono hs (by simp))

end PushSelects

namespace FuseJoins

/-- Fusing below the first list comes by the second, entering a node or leaving it. -/
inductive Meets : Plan → Floating → Floating → Prop
  | entered {p : Plan} {f : Floating} : Meets p f f
  | left {p : Plan} {f : Floating} {x : Plan × Floating} {s t : Progress}
      (fused : Returns (fuse p f) s x t) : Meets p f x.2
  | value {predicate : Predicate} {q : Plan} {qs : List Plan} {i : NodeId}
      {e : Option Statistics} {f g : Floating} (value : predicate.isEqualsValue = true)
      (input : Meets q f g) : Meets ⟨.select predicate, q :: qs, i, e⟩ f g
  | equation {predicate : Predicate} {q : Plan} {qs : List Plan} {i : NodeId}
      {e : Option Statistics} {f g : Floating} (equation : predicate.isEqualsValue = false)
      (input : Meets q (f.add i predicate) g) : Meets ⟨.select predicate, q :: qs, i, e⟩ f g
  | project {cs : List Column} {q : Plan} {qs : List Plan} {i : NodeId}
      {e : Option Statistics} {f g : Floating} (input : Meets q f g) :
      Meets ⟨.project cs, q :: qs, i, e⟩ f g
  | afresh {op : Operator} {q : Plan} {qs : List Plan} {i : NodeId} {e : Option Statistics}
      {f g : Floating} (binary : op.arity = 2) (input : q ∈ qs) (below : Meets q [] g) :
      Meets ⟨op, qs, i, e⟩ f g

theorem Meets.nodup {p : Plan} {f g : Floating} {s : Statistics} (h : Meets p f g)
    (hp : p.Estimated s) (ha : f.Apart p.ids) : g.origins.Nodup := by
  induction h generalizing s with
  | entered => exact ha.of_append_left
  | left fused =>
      have hs := (fused_of_returns fused hp).sublist ha
      exact (hs.map _).nodup ha.of_append_left
  | value _ _ ih =>
      cases hp with
      | select _ hq _ => exact ih hq (ha.mono (.refl _) (by simp))
  | equation _ _ ih =>
      cases hp with
      | select _ hq _ =>
          rw [ids_unary] at ha
          exact ih hq ha.add
  | project _ ih =>
      cases hp with
      | project _ hq _ => exact ih hq (ha.mono (.refl _) (by simp))
  | @afresh op q qs i e f g binary input _ ih =>
      obtain ⟨l, r, rfl, ⟨_, hl⟩, ⟨_, hr⟩⟩ := hp.sides binary
      rw [ids_binary] at ha
      rw [List.mem_cons, List.mem_singleton] at input
      obtain rfl | rfl := input
      · exact ih hl ha.inputs.1
      · exact ih hr ha.inputs.2

end FuseJoins

/-- A rule applied to the plan comes by the list. Only two rules set predicates afloat. -/
def Rule.Meets : Rule → Plan → Floating → Prop
  | pushSelectsDown, p, f => PushSelects.Meets p [] f
  | fuseJoins, p, f => FuseJoins.Meets p [] f
  | reorderProducts, _, _ | pushProjectsDown, _, _ => False

theorem Rule.Meets.nodup {rule : Rule} {p : Plan} {f : Floating} {s : Statistics}
    (h : rule.Meets p f) (hp : p.Estimated s) (hi : p.ids.Nodup) : f.origins.Nodup := by
  cases rule with
  | pushSelectsDown => exact PushSelects.Meets.nodup h hp hi
  | fuseJoins => exact FuseJoins.Meets.nodup h hp hi
  | reorderProducts | pushProjectsDown => cases h

end QueryPlan
