import ShaderMerge.Proofs.Condition.Preprocessor
import Mathlib.Data.List.DropRight

/-!
# The lines that a filter keeps

`Fed.kept` is the text that a caller is left with for one line: the lines that the filter writes,
without the notes about dropped lines, and the line itself if it is live.  `Filter.kept` is the
text for many lines, and `Filter.after` the filter behind them.

A written line is a note or a directive (`Control.ofLine`), and the directives that the filter
makes itself mean what the lines meant in whose place they stand.
-/

namespace ShaderMerge.Condition

/-! ## Notes -/

namespace Group

/-- Whether a line is a note in the place of dropped lines. -/
def isSkipNote (line : String) : Bool :=
  match Text.after? "// " line.toList with
  | some rest => rest.dropWhile Char.isDigit == " lines skipped".toList
  | none => false

theorem isSkipNote_skipNote (count : Nat) : isSkipNote (skipNote count) = true := by
  have htext : (skipNote count).toList
      = "// ".toList ++ ((toString count).toList ++ " lines skipped".toList) := by
    simp only [skipNote, String.toList_append, List.append_assoc]
  have hdigits : ∀ c ∈ (toString count).toList, c.isDigit = true := by
    intro c hc
    rw [Nat.toString_eq_repr, Nat.toList_repr] at hc
    exact Nat.isDigit_of_mem_toDigits (by decide) (by decide) hc
  have hafter : Text.after? "// " (skipNote count).toList
      = some ((toString count).toList ++ " lines skipped".toList) := by
    rw [htext, Text.after?, if_pos (List.isPrefixOf_iff_prefix.2 (List.prefix_append _ _)),
      List.drop_left]
  rw [isSkipNote, hafter, beq_iff_eq, List.dropWhile_append_of_pos hdigits]
  rfl

/-- A directive is no note. -/
theorem isSkipNote_of_ofLine {line : String} (h : Control.ofLine line ≠ .plain) :
    isSkipNote line = false := by
  have hmarked : ∃ cs, line.toList = '#' :: cs := by
    unfold Control.ofLine Directive.ofLine? at h
    split at h
    · exact absurd rfl h
    · rename_i heq
      split at heq
      · rename_i cs hline
        exact ⟨cs, hline⟩
      · cases heq
  obtain ⟨cs, hline⟩ := hmarked
  rw [isSkipNote, hline]
  rfl

/-- A note is a line like any other. -/
theorem ofLine_of_isSkipNote {line : String} (h : isSkipNote line = true) :
    Control.ofLine line = .plain :=
  Decidable.byContradiction fun hother => by
    rw [isSkipNote_of_ofLine hother] at h
    cases h

/-- Lines without the notes among them. -/
def withoutNotes (lines : List String) : List String :=
  lines.filter fun line => !isSkipNote line

theorem withoutNotes_endArm (g : Group) (frame : Frame) :
    withoutNotes (g.endArm frame).2.1 = [] := by
  rw [endArm]
  split
  · rfl
  · rfl
  · split
    · rfl
    · simp [withoutNotes, isSkipNote_skipNote]

end Group

/-! ## Kept lines -/

/-- The lines that are kept of a line that was fed to a filter. -/
def Fed.kept {σ : Type} (fed : Fed σ) (line : String) : List String :=
  Group.withoutNotes fed.written ++ if fed.feed = .live then [line] else []

/-- Behind the note of an arm that ends, a filter keeps the directives it writes. -/
theorem Fed.kept_endArm {σ : Type} (filter : σ) (g : Group) (frame : Frame) (line : String)
    {directives : List String} (h : ∀ d ∈ directives, Group.isSkipNote d = false) :
    Fed.kept ⟨filter, (g.endArm frame).2.1 ++ directives, .consumed⟩ line = directives := by
  have hfilter : Group.withoutNotes directives = directives := by
    rw [Group.withoutNotes, List.filter_eq_self]
    intro d hd
    rw [h d hd]
    rfl
  rw [Fed.kept, Group.withoutNotes, List.filter_append, ← Group.withoutNotes,
    Group.withoutNotes_endArm, ← Group.withoutNotes, hfilter, if_neg nofun, List.nil_append,
    List.append_nil]

namespace Filter

/-- The filter behind some lines. -/
def after (f : Filter) (lines : List String) : Filter :=
  lines.foldl (fun f line => (f.feed line).filter) f

/-- The lines that a filter keeps of a text. -/
def kept (f : Filter) : List String → List String
  | [] => []
  | line :: lines => (f.feed line).kept line ++ (f.feed line).filter.kept lines

end Filter

/-! ## Directives that the filter writes -/

theorem skipBlanksEnd_skipBlanksEnd (cs : List Char) :
    Text.skipBlanksEnd (Text.skipBlanksEnd cs) = Text.skipBlanksEnd cs := by
  rw [Text.skipBlanksEnd, Text.skipBlanksEnd, Text.dropEndWhile, Text.dropEndWhile,
    List.reverse_reverse, List.dropWhile_idempotent Text.isBlank]

/-- No blank stands in front of a trimmed text. -/
theorem skipBlanks_trimmed (cs : List Char) :
    Text.skipBlanks (Text.trimmed cs) = Text.trimmed cs := by
  cases htrimmed : Text.trimmed cs with
  | nil => rfl
  | cons c rest =>
    have hprefix : Text.trimmed cs <+: Text.skipBlanks cs := by
      rw [Text.trimmed, Text.skipBlanksEnd, Text.dropEndWhile, ← List.reverse_suffix,
        List.reverse_reverse]
      exact List.dropWhile_suffix _
    obtain ⟨tail, htail⟩ := hprefix
    rw [htrimmed, List.cons_append] at htail
    have hblank := Text.isBlank_head_skipBlanks htail.symm
    rw [Text.skipBlanks, List.dropWhile_cons, if_neg (by simp [hblank])]

/-- The condition of a directive that the filter writes is the trimmed one. -/
theorem trim_space_append_trim (s : String) :
    Text.trim (" " ++ Text.trim s) = Text.trim s := by
  have htext : (" " ++ Text.trim s).toList = ' ' :: Text.trimmed s.toList := by
    simp only [String.toList_append, Text.trim, String.toList_ofList]
    rfl
  have hspace : Text.skipBlanks (' ' :: Text.trimmed s.toList)
      = Text.skipBlanks (Text.trimmed s.toList) := rfl
  rw [Text.trim, htext, Text.trim, Text.trimmed, hspace, skipBlanks_trimmed, Text.trimmed,
    skipBlanksEnd_skipBlanksEnd]

theorem ofLine_else : Control.ofLine "#else" = .otherwise := by
  decide

theorem ofLine_endif : Control.ofLine "#endif" = .close := by
  decide

theorem ofList_space_toList (s : String) : String.ofList (' ' :: s.toList) = " " ++ s := by
  rw [← String.toList_inj, String.toList_ofList, String.toList_append]
  rfl

theorem ofLine_if (s : String) :
    Control.ofLine ("#if " ++ s) = .openIf (" " ++ s) := by
  have hparts : Directive.ofLine? ("#if " ++ s) = some ⟨"if", " " ++ s⟩ := by
    have htext : ("#if " ++ s).toList = '#' :: 'i' :: 'f' :: ' ' :: s.toList := by
      rw [String.toList_append]
      rfl
    rw [← ofList_space_toList]
    simp only [Directive.ofLine?, htext]
    rfl
  simp only [Control.ofLine, hparts]

theorem ofLine_elif (s : String) :
    Control.ofLine ("#elif " ++ s) = .elseIf (" " ++ s) := by
  have hparts : Directive.ofLine? ("#elif " ++ s) = some ⟨"elif", " " ++ s⟩ := by
    have htext : ("#elif " ++ s).toList = '#' :: 'e' :: 'l' :: 'i' :: 'f' :: ' ' :: s.toList := by
      rw [String.toList_append]
      rfl
    rw [← ofList_space_toList]
    simp only [Directive.ofLine?, htext]
    rfl
  simp only [Control.ofLine, hparts]

end ShaderMerge.Condition
