import ShaderMerge.Proofs.Include.Run

/-!
# The next event of a walk

What a walk does next is said by its innermost frame: `next_of_nil` and the lemmas behind it go
through the cases.  Those without an event, the end of a replay and a shared block, relate the next
events of two walks.

A run that comes to the end of its walk (`RunsOut`) is read off event by event with them.
-/

namespace ShaderMerge.Include

/-- The line that an event reads. -/
def Event.text? : Event → Option String
  | .line _ text => some text
  | .include_ _ directive _ => some directive
  | .endInclude _ _ => none

namespace Walk

variable {s : Sources} {w : Walk} {outer : List Frame} {file text : String}
  {rest block : List String} {directive : Option String}

/-! ## Descents -/

theorem descend_shared (s : Sources) (w : Walk) : (w.descend s).2.shared = w.shared := by
  rw [descend]
  split
  · rfl
  · dsimp only
    split
    · rfl
    · split <;> rfl

/-- A request to descend leaves the frames, or puts a file on them that is not open. -/
theorem descend_stack (s : Sources) (w : Walk) :
    (w.descend s).2.stack = w.stack ∨
      ∃ target lines directive, s.files.get? target = some lines ∧
        w.stack.any (·.file = target) = false ∧
        (w.descend s).2.stack = ⟨target, lines, some directive⟩ :: w.stack := by
  rw [descend]
  split
  · exact .inl rfl
  · rename_i target directive _
    dsimp only
    split
    · exact .inl rfl
    · rename_i hfresh
      rw [Bool.or_eq_true, not_or, Bool.not_eq_true, Bool.not_eq_true] at hfresh
      split
      · exact .inl rfl
      · rename_i lines hlines
        exact .inr ⟨target, lines, directive, hlines, hfresh.2, rfl⟩

/-! ## The innermost frame -/

theorem next_of_nil (hstack : w.stack = []) : w.next s = none := by
  rw [next, advance]
  split <;> simp_all

theorem next_of_endInclude (hstack : w.stack = ⟨file, [], some text⟩ :: outer) :
    w.next s = some (.endInclude text file, { w with pending := none, stack := outer }) := by
  rw [next, advance]
  split <;> simp_all

theorem next_of_endReplay (hstack : w.stack = ⟨file, [], none⟩ :: outer) :
    w.next s = next s { w with stack := outer } := by
  rw [next, advance]
  split <;> simp_all [next]

theorem next_of_shared (hstack : w.stack = ⟨file, text :: rest, directive⟩ :: outer)
    (hshared : isSharedStart text = true) :
    w.next s = next s
      { w with
        shared := w.shared ++ [rest.takeWhile (!isBlockEnd ·)]
        stack := ⟨file, (rest.dropWhile (!isBlockEnd ·)).drop 1, directive⟩ :: outer } := by
  rw [next, advance]
  split <;> simp_all [next]

/-- A shared block that is closed is captured as a whole. -/
theorem next_of_block {opener closer : String}
    (hstack : w.stack = ⟨file, opener :: (block ++ closer :: rest), directive⟩ :: outer)
    (hopener : isSharedStart opener = true) (hblock : block.any isBlockEnd = false)
    (hcloser : isBlockEnd closer = true) :
    w.next s = next s
      { w with shared := w.shared ++ [block], stack := ⟨file, rest, directive⟩ :: outer } := by
  have hinside : ∀ line ∈ block, (!isBlockEnd line) = true := by
    intro line hline
    simpa using List.any_eq_false.1 hblock line hline
  have htake : (block ++ closer :: rest).takeWhile (!isBlockEnd ·) = block := by
    rw [List.takeWhile_append_of_pos hinside, List.takeWhile_cons, hcloser]
    simp
  have hdrop : (block ++ closer :: rest).dropWhile (!isBlockEnd ·) = closer :: rest := by
    rw [List.dropWhile_append_of_pos hinside, List.dropWhile_cons, hcloser]
    simp
  have hnext := next_of_shared (s := s) hstack hopener
  rw [htake, hdrop] at hnext
  exact hnext

/-- A line of a frame is read, and a program start puts the replay on the frame. -/
theorem lineEvent_eq (s : Sources) (w : Walk) (frame : Frame) (text : String)
    (outer : List Frame) :
    (w.lineEvent s frame text outer).1.text? = some text ∧
      (w.lineEvent s frame text outer).2.shared = w.shared ∧
      (w.lineEvent s frame text outer).2.stack
        = (if isProgramStart text then replay s w.shared else []) ++ frame :: outer := by
  rw [lineEvent]
  split
  · exact ⟨rfl, rfl, rfl⟩
  · split
    · exact ⟨rfl, rfl, rfl⟩
    · split
      · exact ⟨rfl, rfl, rfl⟩
      · split <;> exact ⟨rfl, rfl, rfl⟩

theorem next_of_line (hstack : w.stack = ⟨file, text :: rest, directive⟩ :: outer)
    (hshared : ¬ isSharedStart text = true) :
    w.next s
      = some (lineEvent s { w with pending := none } ⟨file, rest, directive⟩ text outer) := by
  rw [next, advance]
  split <;> simp_all

theorem exists_next_of_line (hstack : w.stack = ⟨file, text :: rest, directive⟩ :: outer)
    (hshared : ¬ isSharedStart text = true) :
    ∃ event w₁, w.next s = some (event, w₁) ∧ event.text? = some text ∧ w₁.shared = w.shared ∧
      w₁.stack = (if isProgramStart text then replay s w.shared else []) ++
        ⟨file, rest, directive⟩ :: outer :=
  ⟨_, _, next_of_line hstack hshared, lineEvent_eq s { w with pending := none } _ text outer⟩

end Walk

/-! ## Runs to the end -/

variable {σ ε : Type} {s : Sources} {step : σ → Walk → Event → Except ε (σ × Walk)}
  {state state' : σ} {w w₁ : Walk} {event : Event} {moments : List (Moment σ)}

/-- A run to the end of a walk. -/
def RunsOut (s : Sources) (step : σ → Walk → Event → Except ε (σ × Walk)) (state : σ) (w : Walk)
    (moments : List (Moment σ)) (state' : σ) : Prop :=
  ∃ w', Run s step state w moments state' w' ∧ w'.next s = none

/-- Only the next event of the walk counts. -/
theorem RunsOut.of_next_eq (h : RunsOut s step state w moments state')
    (hsame : w.next s = w₁.next s) : RunsOut s step state w₁ moments state' := by
  obtain ⟨w', hrun, hend⟩ := h
  cases hrun with
  | nil => exact ⟨w₁, .nil, hsame.symm.trans hend⟩
  | cons hnext hstep hrest => exact ⟨w', .cons (hsame.symm.trans hnext) hstep hrest, hend⟩

/-- A run goes on with the next event. -/
theorem RunsOut.of_next (h : RunsOut s step state w moments state')
    (hnext : w.next s = some (event, w₁)) :
    ∃ state₁ w₂ more, moments = ⟨state, event, w₁, state₁⟩ :: more ∧
      step state w₁ event = .ok (state₁, w₂) ∧ RunsOut s step state₁ w₂ more state' := by
  obtain ⟨w', hrun, hend⟩ := h
  cases hrun with
  | nil =>
    rw [hnext] at hend
    cases hend
  | cons hnext' hstep hrest =>
    rw [hnext, Option.some.injEq, Prod.mk.injEq] at hnext'
    obtain ⟨rfl, rfl⟩ := hnext'
    exact ⟨_, _, _, rfl, hstep, w', hrest, hend⟩

end ShaderMerge.Include
