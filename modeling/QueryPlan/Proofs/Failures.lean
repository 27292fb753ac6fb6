import QueryPlan.Proofs.Returns

/-!
What computations fail for. `Fails` names the cause of a failure, and `Avoids` says that it is not
this one, wherever the computation starts; each has one law for each way to build a computation.
Estimates fail for columns and for missing inputs alone, and so selections without a place are
never a cause where nodes are made.
-/

namespace QueryPlan

section Estimates

variable {α β ε : Type} {x : Except ε α} {f : α → Except ε β} {err : ε}

theorem bind_eq_error :
    x >>= f = .error err ↔ x = .error err ∨ ∃ a, x = .ok a ∧ f a = .error err := by
  cases x with
  | error _ => simp [bind, Except.bind]
  | ok a => simp [bind, Except.bind]

theorem pure_ne_error {a : α} : (pure a : Except ε α) ≠ .error err := by
  intro h
  cases h

theorem bind_ne_error (hx : x ≠ .error err) (hf : ∀ a, f a ≠ .error err) :
    x >>= f ≠ .error err := by
  intro h
  obtain h | ⟨a, _, h⟩ := bind_eq_error.mp h
  · exact hx h
  · exact hf a h

theorem discard_ne_error (hx : x ≠ .error err) : discard x ≠ .error err := by
  cases x with
  | error e => exact fun h => hx (congrArg _ (Except.error.inj h))
  | ok a => exact fun h => by cases h

theorem forM_ne_error {f : α → Except ε Unit} (hf : ∀ a, f a ≠ .error err) (as : List α) :
    as.forM f ≠ .error err := by
  induction as with
  | nil => exact pure_ne_error
  | cons a as ih => exact bind_ne_error (hf a) fun _ => ih

theorem mapM_ne_error (hf : ∀ a, f a ≠ .error err) (as : List α) : as.mapM f ≠ .error err := by
  induction as with
  | nil => exact pure_ne_error
  | cons a as ih =>
      rw [List.mapM_cons]
      exact bind_ne_error (hf a) fun _ => bind_ne_error ih fun _ => pure_ne_error

variable {s t : Statistics} {c : Column} {predicate : Predicate} {cs : List Column}
  {fault : Malformation} {predicates : List Predicate}

theorem resolve_ne_malformed : s.resolve c ≠ .error (.malformed fault) := by
  unfold Statistics.resolve
  split <;> simp

theorem divisor_ne_malformed {a : Attribute} : a.divisor ≠ .error (.malformed fault) := by
  unfold Attribute.divisor
  split <;> simp

theorem select_ne_malformed : s.select predicate ≠ .error (.malformed fault) := by
  cases predicate with
  | equalsValue c v =>
      apply bind_ne_error resolve_ne_malformed
      intro a
      exact bind_ne_error divisor_ne_malformed fun _ => pure_ne_error
  | equalsColumn l r =>
      apply bind_ne_error resolve_ne_malformed
      intro a
      apply bind_ne_error resolve_ne_malformed
      intro b
      apply bind_ne_error divisor_ne_malformed
      intro m
      exact bind_ne_error divisor_ne_malformed fun _ => pure_ne_error

theorem project_ne_malformed : s.project cs ≠ .error (.malformed fault) :=
  bind_ne_error (forM_ne_error (fun _ => discard_ne_error resolve_ne_malformed) cs) fun _ =>
    pure_ne_error

theorem joinOn_ne_malformed {d : Column} :
    Statistics.join.joinOn s t c d ≠ .error (.malformed fault) := by
  apply bind_ne_error resolve_ne_malformed
  intro a
  apply bind_ne_error divisor_ne_malformed
  intro m
  apply bind_ne_error resolve_ne_malformed
  intro b
  exact bind_ne_error divisor_ne_malformed fun _ => pure_ne_error

theorem estimate_ne_unplaced {op : Operator} {ss : List Statistics} :
    op.estimate ss ≠ .error (.malformed (.unplacedSelections predicates)) := by
  unfold Operator.estimate
  split
  · exact pure_ne_error
  · exact select_ne_malformed
  · exact project_ne_malformed
  · exact pure_ne_error
  · unfold Statistics.join
    split
    · split <;> exact joinOn_ne_malformed
    · simp
  · simp

theorem output_ne_unplaced {p : Plan} :
    p.output ≠ .error (.malformed (.unplacedSelections predicates)) := by
  unfold Plan.output
  split <;> simp

theorem estimated_ne_unplaced {p : Plan} :
    p.estimated ≠ .error (.malformed (.unplacedSelections predicates)) :=
  bind_ne_error (mapM_ne_error (fun _ => output_ne_unplaced) _) fun _ => estimate_ne_unplaced

end Estimates

namespace Planner

variable {α β : Type} {s t : Progress} {m : Planner α} {f : α → Planner β} {e : Error}

/-- The computation ends for this cause. -/
def Fails (m : Planner α) (s : Progress) (e : Error) : Prop :=
  (m.exec s).1 = .error e

theorem fails_pure {a : α} : Fails (pure a) s e ↔ False :=
  iff_false_intro fun h : Except.ok a = .error e => by cases h

theorem fails_throw {e' : Error} : Fails (throw e' : Planner α) s e ↔ e' = e := by
  change (.error e' : Except Error α) = .error e ↔ _
  rw [Except.error.injEq]

theorem fails_lift {x : Except Error α} : Fails (liftM x) s e ↔ x = .error e :=
  .rfl

theorem fails_report {event : Event} : Fails (report event) s e ↔ False :=
  iff_false_intro fun h : Except.ok () = .error e => by cases h

/-- A sequence fails when its first part does, or the second after the first. -/
theorem fails_bind :
    Fails (m >>= f) s e ↔ Fails m s e ∨ ∃ a t, Returns m s a t ∧ Fails (f a) t e := by
  unfold Fails Returns
  rw [exec_bind]
  rcases m.exec s with ⟨_ | a, t⟩ <;> simp

theorem Fails.bind (h : Fails m s e) : Fails (m >>= f) s e :=
  fails_bind.mpr (.inl h)

theorem Returns.bind_fails {a : α} (h : Returns m s a t) (hf : Fails (f a) t e) :
    Fails (m >>= f) s e :=
  fails_bind.mpr (.inr ⟨a, t, h, hf⟩)

/-- A node cannot be made when its estimate fails. -/
theorem fails_addNode {op : Operator} {qs : List Plan} :
    Fails (addNode op qs) s e ↔
      (Plan.mk op qs (.ofNat (s.issued + 1)) none).estimated = .error e := by
  refine ⟨fun h => ?_, fun h => ?_⟩
  · obtain h | ⟨i, t, hi, h⟩ := fails_bind.mp h
    · cases h
    · obtain ⟨rfl, rfl⟩ := returns_freshId.mp hi
      obtain h | ⟨_, _, _, h⟩ := fails_bind.mp h
      · exact fails_lift.mp h
      · exact (fails_pure.mp h).elim
  · exact (returns_freshId.mpr ⟨rfl, rfl⟩).bind_fails (Fails.bind (fails_lift.mpr h))

/-- The computation does not end for this cause, wherever it starts. -/
def Avoids (m : Planner α) (e : Error) : Prop :=
  ∀ s, ¬ Fails m s e

theorem avoids_pure (a : α) : Avoids (pure a) e :=
  fun _ => fails_pure.mp

theorem avoids_throw {e' : Error} (h : e' ≠ e) : Avoids (throw e' : Planner α) e :=
  fun _ hf => h (fails_throw.mp hf)

theorem avoids_lift {x : Except Error α} (h : x ≠ .error e) : Avoids (liftM x) e :=
  fun _ hf => h (fails_lift.mp hf)

theorem avoids_report (event : Event) : Avoids (report event) e :=
  fun _ => fails_report.mp

theorem Avoids.bind (hm : Avoids m e) (hf : ∀ a, Avoids (f a) e) : Avoids (m >>= f) e := by
  intro s h
  obtain h | ⟨a, t, _, h⟩ := fails_bind.mp h
  · exact hm s h
  · exact hf a t h

theorem Avoids.discard (hm : Avoids m e) : Avoids (discard m) e :=
  hm.bind fun _ => avoids_pure _

theorem avoids_forM_report {γ : Type} (cs : List γ) (event : γ → Event) :
    Avoids (cs.forM fun c => report (event c)) e := by
  induction cs with
  | nil => exact avoids_pure _
  | cons c cs ih => exact (avoids_report _).bind fun _ => ih

variable {predicates : List Predicate}

theorem avoids_addNode (op : Operator) (qs : List Plan) :
    Avoids (addNode op qs) (.malformed (.unplacedSelections predicates)) :=
  fun _ h => estimated_ne_unplaced (fails_addNode.mp h)

theorem avoids_stackSelections (p : Plan) (qs : List Predicate) :
    Avoids (stackSelections p qs) (.malformed (.unplacedSelections predicates)) := by
  induction qs generalizing p with
  | nil => exact avoids_pure p
  | cons q qs ih => exact (avoids_addNode _ _).bind ih

end Planner
end QueryPlan
