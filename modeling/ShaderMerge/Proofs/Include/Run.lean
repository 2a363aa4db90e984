import ShaderMerge.Include.Walk

/-!
# Runs over the sources

`Walk.fold` gives the state at the end of a walk.  A `Run` is what happens on the way there: the
list of its moments, each with the state in front of an event, the event, and the state behind it.

`Walk.run_of_fold` turns a fold that succeeds into a run to the end of the walk.  A property of the
end is then shown by induction on the run, and one of every point by splitting it there
(`Run.split`).
-/

namespace ShaderMerge

/-! ## Results -/

theorem exists_ok_of_map {ε α β : Type} {x : Except ε α} {f : α → β} {b : β}
    (h : x.map f = .ok b) : ∃ a, x = .ok a ∧ f a = b := by
  cases x with
  | error e => cases h
  | ok a => exact ⟨a, rfl, Except.ok.inj h⟩

theorem exists_ok_of_bind {ε α β : Type} {x : Except ε α} {f : α → Except ε β} {b : β}
    (h : x >>= f = .ok b) : ∃ a, x = .ok a ∧ f a = .ok b := by
  cases x with
  | error e => cases h
  | ok a => exact ⟨a, rfl, h⟩

theorem exists_ok_of_any {ε α : Type} {x : Except ε α} {p : α → Bool}
    (h : x.toOption.any p = true) : ∃ a, x = .ok a ∧ p a = true := by
  cases x with
  | error e => cases h
  | ok a => exact ⟨a, rfl, h⟩

namespace Include

/-! ## Runs -/

variable {σ ε : Type} {s : Sources} {step : σ → Walk → Event → Except ε (σ × Walk)}

/-- One event of a run. -/
structure Moment (σ : Type) where
  /-- The state in front of the event. -/
  before : σ
  /-- The event. -/
  event : Event
  /-- The walk behind the event, as the step is given it. -/
  walk : Walk
  /-- The state behind the event. -/
  after : σ

/-- What happens on a walk from one state and place to another. -/
inductive Run (s : Sources) (step : σ → Walk → Event → Except ε (σ × Walk)) :
    σ → Walk → List (Moment σ) → σ → Walk → Prop where
  | nil {state : σ} {w : Walk} : Run s step state w [] state w
  | cons {state state₁ state' : σ} {w w₁ w₂ w' : Walk} {event : Event}
      {moments : List (Moment σ)} (next : w.next s = some (event, w₁))
      (step_eq : step state w₁ event = .ok (state₁, w₂))
      (rest : Run s step state₁ w₂ moments state' w') :
      Run s step state w (⟨state, event, w₁, state₁⟩ :: moments) state' w'

namespace Run

variable {state state' : σ} {w w' : Walk} {moments first second : List (Moment σ)}
  {m : Moment σ}

/-- A run that passes a moment is a run up to it, its step, and a run from it on. -/
theorem split (h : Run s step state w (first ++ m :: second) state' w') :
    ∃ w₀ w₂, Run s step state w first m.before w₀ ∧ w₀.next s = some (m.event, m.walk) ∧
      step m.before m.walk m.event = .ok (m.after, w₂) ∧
      Run s step m.after w₂ second state' w' := by
  induction first generalizing state w with
  | nil =>
    cases h with
    | cons next step_eq rest => exact ⟨w, _, .nil, next, step_eq, rest⟩
  | cons x xs ih =>
    cases h with
    | cons next step_eq rest =>
      obtain ⟨w₀, w₂, hfirst, hrest⟩ := ih rest
      exact ⟨w₀, w₂, .cons next step_eq hfirst, hrest⟩

/-- A property of the state that every event preserves holds at the end. -/
theorem invariant {P : σ → Prop} (h : Run s step state w moments state' w') (hstart : P state)
    (hstep : ∀ state w event state' w', P state → step state w event = .ok (state', w') →
      P state') : P state' := by
  induction h with
  | nil => exact hstart
  | cons next step_eq rest ih => exact ih (hstep _ _ _ _ _ hstart step_eq)

end Run

/-- The moments of a fold, within its number of steps. -/
def Walk.moments (s : Sources) (step : σ → Walk → Event → Except ε (σ × Walk)) :
    Nat → σ → Walk → List (Moment σ)
  | 0, _, _ => []
  | fuel + 1, state, w =>
    match w.next s with
    | none => []
    | some (event, w₁) =>
      match step state w₁ event with
      | .error _ => []
      | .ok (state₁, w₂) => ⟨state, event, w₁, state₁⟩ :: moments s step fuel state₁ w₂

/-- A fold that succeeds is a run to the end of the walk. -/
theorem Walk.run_of_fold {endless : ε} {fuel : Nat} {state state' : σ} {w w' : Walk}
    (h : Walk.fold s endless step fuel state w = .ok (state', w')) :
    Run s step state w (Walk.moments s step fuel state w) state' w' ∧ w'.next s = none := by
  induction fuel generalizing state w with
  | zero => cases h
  | succ fuel ih =>
    rw [Walk.fold] at h
    rw [Walk.moments]
    cases hnext : w.next s with
    | none =>
      rw [hnext] at h
      cases h
      exact ⟨.nil, hnext⟩
    | some found =>
      obtain ⟨event, w₁⟩ := found
      rw [hnext] at h
      dsimp only at h ⊢
      cases hstep : step state w₁ event with
      | error e =>
        rw [hstep] at h
        cases h
      | ok found =>
        obtain ⟨state₁, w₂⟩ := found
        rw [hstep] at h
        obtain ⟨hrun, hend⟩ := ih h
        exact ⟨.cons hnext hstep hrun, hend⟩

end Include

end ShaderMerge
