import ShaderMerge.Include.Walk

/-!
# The files that a walk has open

`Walk.included` counts the files that a walk has descended into and not left.  A descent that is not
refused adds one, the end of an included file takes one away, and no other event changes the count.
At the end of a walk it is zero.
-/

namespace ShaderMerge.Include.Walk

/-- The number of included files among some frames. -/
def frameCount (stack : List Frame) : Nat := stack.countP (·.directive.isSome)

/-- The number of included files that are being walked. -/
def included (w : Walk) : Nat := frameCount w.stack

/-- What an event says of the number of included files in front of it and behind it. -/
def Counts (w : Walk) : Option (Event × Walk) → Prop
  | none => w.included = 0
  | some (.line _ _, w') => w'.included = w.included
  | some (.include_ _ directive _, w') =>
    (target? directive).isSome = true ∧ w'.included = w.included
  | some (.endInclude _ _, w') => w.included = w'.included + 1

variable {s : Sources} {w : Walk}

theorem frameCount_cons (frame : Frame) (outer : List Frame) :
    frameCount (frame :: outer) = frameCount outer + frame.directive.isSome.toNat := by
  rw [frameCount, List.countP_cons, frameCount]
  cases frame.directive.isSome <;> rfl

/-- Shared blocks are not included. -/
theorem frameCount_replay (shared : List (List String)) (outer : List Frame) :
    frameCount (replay s shared ++ outer) = frameCount outer := by
  rw [frameCount, List.countP_append, replay, List.countP_map]
  have hzero : shared.countP ((fun frame : Frame => frame.directive.isSome) ∘
      fun block => ⟨s.main, block, none⟩) = 0 := by
    simp [Function.comp_def]
  rw [hzero, Nat.zero_add]
  rfl

theorem counts_lineEvent {file text : String} {rest : List String} {directive : Option String}
    {outer : List Frame} (hstack : w.stack = ⟨file, text :: rest, directive⟩ :: outer) :
    Counts w (some (w.lineEvent s ⟨file, rest, directive⟩ text outer)) := by
  have hcount : frameCount (⟨file, rest, directive⟩ :: outer) = w.included := by
    rw [included, hstack, frameCount_cons, frameCount_cons]
  rw [lineEvent]
  split
  · exact (frameCount_replay _ _).trans hcount
  · split
    · exact hcount
    · split
      · exact hcount
      · rename_i target htarget
        split
        · exact ⟨by rw [htarget]; rfl, hcount⟩
        · exact ⟨by rw [htarget]; rfl, hcount⟩

theorem Counts.congr {w₁ : Walk} {found : Option (Event × Walk)} (h : Counts w₁ found)
    (hsame : w₁.included = w.included) : Counts w found := by
  match found, h with
  | none, h => exact hsame.symm.trans h
  | some (.line _ _, _), h => exact h.trans hsame
  | some (.include_ _ _ _, _), h => exact ⟨h.1, h.2.trans hsame⟩
  | some (.endInclude _ _, _), h => exact hsame.symm.trans h

theorem counts_advance (s : Sources) (w : Walk) : Counts w (w.advance s) := by
  fun_induction advance s w with
  | case1 w hstack =>
    rw [Counts, included, hstack]
    rfl
  | case2 w file directive outer hstack =>
    rw [Counts, included, hstack, frameCount_cons]
    rfl
  | case3 w file outer hstack ih =>
    refine ih.congr ?_
    rw [included, included, hstack, frameCount_cons]
    rfl
  | case4 w file text rest directive outer hstack hshared ih =>
    refine ih.congr ?_
    rw [included, included, hstack, frameCount_cons, frameCount_cons]
  | case5 w file text rest directive outer hstack hshared => exact counts_lineEvent hstack

theorem counts_next (s : Sources) (w : Walk) : Counts w (w.next s) :=
  (counts_advance s { w with pending := none }).congr rfl

/-- A descent adds the file, if it is not refused. -/
theorem included_descend (s : Sources) (w : Walk) :
    (w.descend s).2.included = w.included + (w.descend s).1.toNat := by
  rw [descend]
  split
  · rfl
  · dsimp only
    split
    · rfl
    · split
      · rfl
      · exact frameCount_cons _ _

end ShaderMerge.Include.Walk
