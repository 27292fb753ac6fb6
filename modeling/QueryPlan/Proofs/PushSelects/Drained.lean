import QueryPlan.Proofs.Failures
import QueryPlan.Proofs.PushSelects.Pushed

/-!
Nothing stays afloat. Of each number no more entries come back from a node than were handed to it,
whatever the plan and its numbers: a selection adds an entry of its number on the way down, and on
the way back takes one of that number off if there is any, be it its own or another's. Nothing is
handed to the root, so nothing is left of a walk that ends well, and one that fails does so for
another cause.
-/

namespace QueryPlan
namespace PushSelects

open Planner

variable {predicates : List Predicate}

theorem avoids_settle (p : Plan) (f : Floating) (test : Predicate → Bool)
    (event : Predicate → Event) :
    Avoids (settle p f test event) (.malformed (.unplacedSelections predicates)) := by
  apply (avoids_forM_report _ _).bind
  intro _
  exact (avoids_stackSelections _ _).bind fun _ => avoids_pure _

theorem avoids_settleCovered (p : Plan) (f : Floating) :
    Avoids (settleCovered p f) (.malformed (.unplacedSelections predicates)) :=
  (avoids_lift output_ne_unplaced).bind fun _ => avoids_settle _ _ _ _

theorem avoids_push (p : Plan) (f : Floating) :
    Avoids (push p f) (.malformed (.unplacedSelections predicates)) := by
  fun_induction push p f with
  | case1 => exact avoids_settle _ _ _ _
  | case2 | case4 | case6 | case7 => exact avoids_throw (by simp [Plan.noInput])
  | case3 predicate q qs i e f ih =>
      apply ih.bind
      intro x
      dsimp only
      split
      · apply (avoids_report _).bind
        intro _
        exact (avoids_addNode _ _).bind fun _ => avoids_pure _
      · exact avoids_pure _
  | case5 cs q qs i e f ih =>
      apply ih.bind
      intro x
      exact (avoids_addNode _ _).bind fun _ => avoids_pure _
  | case8 l i e f ih | case9 predicate l i e f ih =>
      exact ih.discard.bind fun _ => avoids_throw (by simp [Plan.noInput])
  | case10 l r qs i e f ihl ihr | case11 predicate l r qs i e f ihl ihr =>
      apply ihl.bind
      intro x
      apply (ihr x.2).bind
      intro y
      exact (avoids_addNode _ _).bind fun _ => avoids_settleCovered _ _

theorem avoids_run (p : Plan) :
    Avoids (run p) (.malformed (.unplacedSelections predicates)) := by
  intro s h
  obtain h | ⟨⟨q, g⟩, t, pushed, h⟩ := fails_bind.mp h
  · exact avoids_push p [] s h
  · obtain rfl : g = [] := (pushed_of_returns pushed).eq_nil
    exact fails_pure.mp h

/-- Pushing down never leaves selections without a place. Of each number, no more entries float
above what a node has become than floated above the node. -/
theorem run_drains (p : Plan) :
    (∀ x predicates, ¬ Fails (run p) x (.malformed (.unplacedSelections predicates))) ∧
      ∀ f x q g y, Returns (push p f) x (q, g) y → ∀ i, g.origins.count i ≤ f.origins.count i := by
  refine ⟨fun x _ => avoids_run p x, fun f x q g y h i => ?_⟩
  have hle := (pushed_of_returns h).origins_le
  simpa using Multiset.count_le_of_le i hle

def muddled : Plan :=
  ⟨.select (.equalsColumn ⟨"x"⟩ ⟨"y"⟩), [⟨.select (.equalsValue ⟨"x"⟩ "1"),
    [⟨.scan ⟨"r", ⟨8, [⟨⟨"x"⟩, 4⟩, ⟨⟨"y"⟩, 2⟩]⟩⟩, [], 1, some ⟨8, [⟨⟨"x"⟩, 4⟩, ⟨⟨"y"⟩, 2⟩]⟩⟩],
    1, none⟩], 1, none⟩

/-- Below an entry of their number that nothing takes, the lower selection takes that entry off
for its own, and stands twice. -/
theorem run_drains_muddled :
    (∀ x predicates, ¬ Fails (run muddled) x (.malformed (.unplacedSelections predicates))) ∧
      ∃ q g y, Returns (push muddled [⟨1, .equalsValue ⟨"z"⟩ "3"⟩, ⟨2, .equalsValue ⟨"z"⟩ "3"⟩])
          .start (q, g) y ∧ g.origins = [2] ∧ q.predicates.length = 3 ∧
        ∀ i, g.origins.count i ≤ [1, 2].count i := by
  obtain ⟨never, le⟩ := run_drains muddled
  refine ⟨never, _, _, _, rfl, rfl, rfl, ?_⟩
  exact le [⟨1, .equalsValue ⟨"z"⟩ "3"⟩, ⟨2, .equalsValue ⟨"z"⟩ "3"⟩] .start _ _ _ rfl

end PushSelects
end QueryPlan
