import ShaderMerge.Proofs.LogicalLine.Statements
import ShaderMerge.Proofs.Region.Comparisons

/-!
# The joined lines of a file

`LeavesAll` reads joined lines one behind the other: each starts in the mode in which the one before
it has ended, and one that starts in code may be the directive of a region.  All lines can be read so,
or some line is the first one with a literal that is left open (`leavesAll_or_opens`).
`normalizeFrom_append` is what reading them does: what they leave is written as logical lines.
-/

namespace ShaderMerge.LogicalLine

open Text

/-- A joined line as it is read: one that starts in code may mark a region. -/
def marked : Mode → List Char → List Char
  | .code, line => promoteRegion (skipBlanks line)
  | _, line => line

/-- Joined lines that are read from a mode on, what each of them leaves, and the mode at their end. -/
inductive LeavesAll : Mode → List (List Char) → List (List Char) → Mode → Prop where
  /-- No line. -/
  | nil (mode : Mode) : LeavesAll mode [] [] mode
  /-- One line more in front. -/
  | cons {mode mode' : Mode} {line left : List Char} {lines lefts : List (List Char)} {e : Ending}
      (first : Leaves mode (marked mode line) left e) (others : LeavesAll e.mode lines lefts mode') :
      LeavesAll mode (line :: lines) (left :: lefts) mode'

/-- Joined lines that are read from a mode on up to one that leaves a literal open. -/
def Opens (mode : Mode) (lines : List (List Char)) : Prop :=
  ∃ before line after lefts mode' left body, lines = before ++ line :: after ∧
    LeavesAll mode before lefts mode' ∧ Leaves mode' (marked mode' line) left (.literal body)

variable {mode mode' : Mode} {line left : List Char} {lines lefts : List (List Char)} {e : Ending}
  {p p' : Progress}

/-- Either all lines are read, or there is a first one that leaves a literal open. -/
theorem leavesAll_or_opens (hmode : mode ≠ .literal) (lines : List (List Char)) :
    (∃ lefts mode', mode' ≠ .literal ∧ LeavesAll mode lines lefts mode') ∨ Opens mode lines := by
  induction lines generalizing mode with
  | nil => exact .inl ⟨[], mode, hmode, .nil mode⟩
  | cons line lines ih =>
    obtain ⟨left, e, hline⟩ := exists_leaves mode hmode (marked mode line)
    have hothers : e.mode ≠ .literal →
        (∃ lefts mode', mode' ≠ .literal ∧ LeavesAll mode (line :: lines) lefts mode') ∨
          Opens mode (line :: lines) := by
      intro he
      obtain ⟨lefts, mode', hmode', hlines⟩ | ⟨before, opening, after, lefts, mode', left', body, rfl,
        hbefore, hopening⟩ := ih he
      · exact .inl ⟨left :: lefts, mode', hmode', .cons hline hlines⟩
      · exact .inr ⟨line :: before, opening, after, left :: lefts, mode', left', body, rfl,
          .cons hline hbefore, hopening⟩
    cases e with
    | code => exact hothers (by decide)
    | comment => exact hothers (by decide)
    | literal body =>
      exact .inr ⟨[], line, lines, [], mode, left, body, rfl, .nil mode, hline⟩

/-! ## One line -/

/-- The text of the logical lines so far. -/
def Progress.text (p : Progress) : List Char := p.done.reverse.flatMap String.toList

/-- One state between two lines and another one, between which lines were read. -/
structure Follows (p : Progress) (left : List Char) (mode : Mode) (p' : Progress) : Prop where
  /-- Whether a block comment is open. -/
  inComment : p'.inComment = decide (mode = .comment)
  /-- What the lines leave is written. -/
  text : visible p'.text = visible (p.text ++ left)
  /-- It is written as logical lines. -/
  logical : ∀ line ∈ p'.done, IsLogical line.toList

theorem bare_eq_stripComments (hmode : mode ≠ .literal) (line : List Char) :
    bare (decide (mode = .comment)) line = stripComments mode (marked mode line) := by
  cases mode with
  | code => rfl
  | comment => rfl
  | literal => exact absurd rfl hmode

/-- **One line** is not read if it leaves a literal open; else what it leaves is written. -/
theorem line?_of_leaves (hmode : mode ≠ .literal) (hp : p.inComment = decide (mode = .comment))
    (hdone : ∀ line ∈ p.done, IsLogical line.toList) (h : Leaves mode (marked mode line) left e) :
    (e.mode = .literal ∧ p.line? line = none) ∨
      (e.mode ≠ .literal ∧ ∃ p', p.line? line = some p' ∧ Follows p left e.mode p') := by
  obtain ⟨hvisible, hend⟩ := stripComments_of_leaves h
  have hbare := isBare_stripComments mode (marked mode line)
  have hspot : mode.spot = .code := by
    cases mode with
    | literal => exact absurd rfl hmode
    | code => rfl
    | comment => rfl
  rw [Progress.line?, ← bare, hp, bare_eq_stripComments hmode]
  rw [hend, hspot] at hbare
  generalize stripComments mode (marked mode line) = out at hvisible hend hbare ⊢
  obtain ⟨left', mode'⟩ := out
  obtain rfl : mode' = e.mode := hend
  by_cases hliteral : e.mode = .literal
  · exact .inl ⟨hliteral, if_pos hliteral⟩
  refine .inr ⟨hliteral, ?_⟩
  have hbare : IsBare .code left' := hbare.resolve_left hliteral
  have hvisible : visible (trimmed left') = visible left := (visible_trimmed left').trans hvisible
  dsimp only
  rw [if_neg hliteral]
  split
  · rename_i hempty
    refine ⟨_, rfl, rfl, ?_, hdone⟩
    rw [visible_append, ← hvisible, hempty]
    exact (List.append_nil _).symm
  · rename_i tail hdirective
    refine ⟨_, rfl, rfl, ?_, ?_⟩
    · simp only [Progress.text, List.reverse_cons, List.flatMap_append, List.flatMap_singleton,
        String.toList_ofList, visible_append, hvisible]
    · refine List.forall_mem_cons.2 ⟨?_, hdone⟩
      rw [String.toList_ofList]
      refine ⟨?_, trimmed_trimmed left', hbare.trimmed, .inl ?_⟩
      · rw [hdirective]
        exact List.cons_ne_nil _ _
      · rw [hdirective]
        rfl
  · obtain ⟨hlogical, htext⟩ := Splitter.split_of_isBare hdone hbare.trimmed
    refine ⟨_, rfl, rfl, ?_, hlogical⟩
    rw [visible_append, ← hvisible]
    exact htext

/-! ## Many lines -/

theorem Follows.trans {left left' : List Char} {p'' : Progress} (h : Follows p left mode p')
    (h' : Follows p' left' mode' p'') : Follows p (left ++ left') mode' p'' where
  inComment := h'.inComment
  text := by
    rw [h'.text, visible_append, h.text, ← visible_append, List.append_assoc]
  logical := h'.logical

/-- **Reading lines** without an open literal writes what they leave. -/
theorem normalizeFrom_append (file : String) (number : Nat) (h : LeavesAll mode lines lefts mode')
    (hmode : mode ≠ .literal) (hmode' : mode' ≠ .literal)
    (hp : p.inComment = decide (mode = .comment))
    (hdone : ∀ line ∈ p.done, IsLogical line.toList) :
    ∃ p', Follows p lefts.flatten mode' p' ∧ ∀ rest, normalizeFrom file p number (lines ++ rest)
      = normalizeFrom file p' (number + lines.length) rest := by
  induction h generalizing p number with
  | nil mode => exact ⟨p, ⟨hp, by rw [List.flatten_nil, List.append_nil], hdone⟩, fun _ => rfl⟩
  | @cons mode mode' line left lines lefts e hline hlines ih =>
    obtain ⟨he, -⟩ | ⟨he, p', hp', hfollows⟩ := line?_of_leaves hmode hp hdone hline
    · -- No line is read behind one that leaves a literal open.
      rw [he] at hlines
      cases hlines with
      | nil => exact absurd rfl hmode'
      | cons hline _ => cases hline
    · obtain ⟨p'', hfollows', hrest⟩ := ih (number + 1) he hmode' hfollows.inComment hfollows.logical
      refine ⟨p'', hfollows.trans hfollows', fun rest => ?_⟩
      rw [List.cons_append, normalizeFrom, hp']
      refine (hrest rest).trans ?_
      rw [List.length_cons, Nat.add_right_comm, Nat.add_assoc]

end ShaderMerge.LogicalLine
