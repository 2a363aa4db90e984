import Mathlib.Data.List.Infix
import ShaderMerge.LogicalLine

/-!
# The comments of a line

`Leaves` says which parts a line is made of: characters of code, string literals, a comment up to the
end of the line, and block comments, which may start on an earlier line and go on behind this one.  A
mark of a comment in a literal means nothing, nor does a quote in a comment.  So a line ends in one of
three ways (`Ending`), and what it leaves is all but its comments.

Every line can be read so (`exists_leaves`).  `stripComments_of_leaves` is what the scanner gives for
it: the characters that are left, up to blanks, and the mode in which the line ends.
-/

namespace ShaderMerge.LogicalLine

/-- The characters of a text that are not blank. -/
def visible (cs : List Char) : List Char := cs.filter (!Text.isBlank ·)

/-- What stands between the quotes of a literal: escaped characters, and others that are neither a
quote nor a backslash. -/
inductive IsQuoted : List Char → Prop where
  | nil : IsQuoted []
  | plain {c : Char} {rest : List Char} (quote : c ≠ '"') (backslash : c ≠ '\\')
      (others : IsQuoted rest) : IsQuoted (c :: rest)
  | escaped {c : Char} {rest : List Char} (others : IsQuoted rest) : IsQuoted ('\\' :: c :: rest)

/-- What stands behind the quote of a literal that is left open.  A backslash at its end escapes
nothing. -/
def IsUnclosed (cs : List Char) : Prop := IsQuoted cs ∨ ∃ front, IsQuoted front ∧ cs = front ++ ['\\']

/-- A text in which no block comment ends. -/
def IsUnended (cs : List Char) : Prop := ¬ ['*', '/'] <:+: cs

/-- Whether a text starts with the mark of a comment. -/
def startsComment : List Char → Bool
  | '/' :: '/' :: _ => true
  | '/' :: '*' :: _ => true
  | _ => false

/-- How a line ends. -/
inductive Ending where
  /-- In code. -/
  | code
  /-- In a block comment. -/
  | comment
  /-- In a literal, with the text behind its quote. -/
  | literal (body : List Char)

/-- The mode in which a line ends. -/
def Ending.mode : Ending → Mode
  | code => .code
  | comment => .comment
  | literal _ => .literal

/-- A line that starts in a mode, what it leaves without its comments, and how it ends. -/
inductive Leaves : Mode → List Char → List Char → Ending → Prop where
  /-- The end of the line. -/
  | done : Leaves .code [] [] .code
  /-- A character of code. -/
  | code {c : Char} {rest left : List Char} {e : Ending} (quote : c ≠ '"')
      (mark : startsComment (c :: rest) = false) (others : Leaves .code rest left e) :
      Leaves .code (c :: rest) (c :: left) e
  /-- A literal. -/
  | literal {body rest left : List Char} {e : Ending} (inside : IsQuoted body)
      (others : Leaves .code rest left e) :
      Leaves .code ('"' :: (body ++ '"' :: rest)) ('"' :: (body ++ '"' :: left)) e
  /-- A literal that is left open. -/
  | openLiteral {body : List Char} (inside : IsUnclosed body) :
      Leaves .code ('"' :: body) ('"' :: body) (.literal body)
  /-- A comment up to the end of the line. -/
  | lineComment (body : List Char) : Leaves .code ('/' :: '/' :: body) [] .code
  /-- The start of a block comment. -/
  | blockComment {rest left : List Char} {e : Ending} (others : Leaves .comment rest left e) :
      Leaves .code ('/' :: '*' :: rest) left e
  /-- The rest of a block comment. -/
  | endComment {body rest left : List Char} {e : Ending} (inside : IsUnended body)
      (others : Leaves .code rest left e) : Leaves .comment (body ++ '*' :: '/' :: rest) left e
  /-- A part of a block comment that does not end on the line. -/
  | openComment {body : List Char} (inside : IsUnended body) : Leaves .comment body [] .comment

variable {c : Char} {cs body rest left : List Char} {mode : Mode} {e : Ending}

/-! ## Every line can be read -/

theorem IsUnclosed.plain (quote : c ≠ '"') (backslash : c ≠ '\\') (h : IsUnclosed rest) :
    IsUnclosed (c :: rest) := by
  obtain h | ⟨front, hfront, rfl⟩ := h
  · exact .inl (.plain quote backslash h)
  · exact .inr ⟨c :: front, .plain quote backslash hfront, rfl⟩

theorem IsUnclosed.escaped (h : IsUnclosed rest) : IsUnclosed ('\\' :: c :: rest) := by
  obtain h | ⟨front, hfront, rfl⟩ := h
  · exact .inl (.escaped h)
  · exact .inr ⟨'\\' :: c :: front, .escaped hfront, rfl⟩

/-- A literal is closed by its first quote that is not escaped, or left open. -/
theorem quoted_or_unclosed :
    ∀ cs, (∃ body rest, cs = body ++ '"' :: rest ∧ IsQuoted body) ∨ IsUnclosed cs
  | [] => .inr (.inl .nil)
  | [c] => by
    by_cases hquote : c = '"'
    · exact .inl ⟨[], [], by rw [hquote]; rfl, .nil⟩
    · by_cases hbackslash : c = '\\'
      · exact .inr (.inr ⟨[], .nil, by rw [hbackslash]; rfl⟩)
      · exact .inr (.inl (.plain hquote hbackslash .nil))
  | c :: d :: rest => by
    by_cases hquote : c = '"'
    · exact .inl ⟨[], d :: rest, by rw [hquote]; rfl, .nil⟩
    · by_cases hbackslash : c = '\\'
      · subst hbackslash
        obtain ⟨body, behind, rfl, hbody⟩ | hopen := quoted_or_unclosed rest
        · exact .inl ⟨'\\' :: d :: body, behind, rfl, .escaped hbody⟩
        · exact .inr hopen.escaped
      · obtain ⟨body, behind, heq, hbody⟩ | hopen := quoted_or_unclosed (d :: rest)
        · exact .inl ⟨c :: body, behind, by rw [heq]; rfl, .plain hquote hbackslash hbody⟩
        · exact .inr (hopen.plain hquote hbackslash)

theorem isUnended_nil : IsUnended [] := by
  intro h
  cases List.infix_nil.1 h

theorem isUnended_cons_iff : IsUnended (c :: rest) ↔ ¬ ['*', '/'] <+: c :: rest ∧ IsUnended rest := by
  rw [IsUnended, IsUnended, List.infix_cons_iff, not_or]

/-- A block comment ends at the first place where it can, or not at all. -/
theorem ended_or_unended (cs : List Char) :
    (∃ body rest, cs = body ++ '*' :: '/' :: rest ∧ IsUnended body) ∨ IsUnended cs := by
  induction cs with
  | nil => exact .inr isUnended_nil
  | cons c rest ih =>
    by_cases hend : ['*', '/'] <+: c :: rest
    · obtain ⟨behind, hbehind⟩ := hend
      exact .inl ⟨[], behind, hbehind.symm, isUnended_nil⟩
    · obtain ⟨body, behind, rfl, hbody⟩ | hopen := ih
      · refine .inl ⟨c :: body, behind, rfl, isUnended_cons_iff.2 ⟨fun hprefix => hend ?_, hbody⟩⟩
        exact hprefix.trans (List.prefix_append (c :: body) _)
      · exact .inr (isUnended_cons_iff.2 ⟨hend, hopen⟩)

theorem exists_startsComment (h : startsComment cs = true) :
    ∃ rest, cs = '/' :: '/' :: rest ∨ cs = '/' :: '*' :: rest := by
  unfold startsComment at h
  split at h
  · exact ⟨_, .inl rfl⟩
  · exact ⟨_, .inr rfl⟩
  · cases h

/-- Every line can be read. -/
theorem exists_leaves (mode : Mode) (hmode : mode ≠ .literal) (cs : List Char) :
    ∃ left e, Leaves mode cs left e := by
  induction hlength : cs.length using Nat.strongRecOn generalizing mode cs with
  | _ n ih =>
    subst hlength
    cases mode with
    | literal => exact absurd rfl hmode
    | comment =>
      obtain ⟨body, rest, rfl, hbody⟩ | hopen := ended_or_unended cs
      · have hlt : rest.length < (body ++ '*' :: '/' :: rest).length := by
          simp only [List.length_append, List.length_cons]
          omega
        obtain ⟨left, e, hrest⟩ := ih rest.length hlt .code (by decide) rest rfl
        exact ⟨left, e, .endComment hbody hrest⟩
      · exact ⟨[], .comment, .openComment hopen⟩
    | code =>
      cases cs with
      | nil => exact ⟨[], .code, .done⟩
      | cons c cs =>
        by_cases hquote : c = '"'
        · subst hquote
          obtain ⟨body, rest, rfl, hbody⟩ | hopen := quoted_or_unclosed cs
          · have hlt : rest.length < ('"' :: (body ++ '"' :: rest)).length := by
              simp only [List.length_append, List.length_cons]
              omega
            obtain ⟨left, e, hrest⟩ := ih rest.length hlt .code (by decide) rest rfl
            exact ⟨_, e, .literal hbody hrest⟩
          · exact ⟨_, _, .openLiteral hopen⟩
        · cases hmark : startsComment (c :: cs) with
          | false =>
            obtain ⟨left, e, hrest⟩ := ih cs.length (by simp) .code (by decide) cs rfl
            exact ⟨c :: left, e, .code hquote hmark hrest⟩
          | true =>
            obtain ⟨rest, heq | heq⟩ := exists_startsComment hmark
            · rw [heq]
              exact ⟨[], .code, .lineComment rest⟩
            · have hlt : rest.length < (c :: cs).length := by
                rw [heq, List.length_cons, List.length_cons]
                omega
              obtain ⟨left, e, hrest⟩ := ih rest.length hlt .comment (by decide) rest rfl
              rw [heq]
              exact ⟨left, e, .blockComment hrest⟩

/-! ## What the scanner gives -/

-- The lemmas of this section go through the equations of the scanner, mode by mode.
attribute [local simp] stripComments

theorem stripComments_code_cons (quote : c ≠ '"') (mark : startsComment (c :: rest) = false) :
    stripComments .code (c :: rest)
      = (c :: (stripComments .code rest).1, (stripComments .code rest).2) := by
  rw [stripComments]
  · rintro tail rfl rfl
    cases mark
  · rintro tail rfl rfl
    cases mark
  · exact quote

theorem stripComments_literal_plain (quote : c ≠ '"') (backslash : c ≠ '\\') :
    stripComments .literal (c :: rest)
      = (c :: (stripComments .literal rest).1, (stripComments .literal rest).2) := by
  rw [stripComments]
  · rintro d tail rfl
    exact absurd rfl backslash
  · exact quote

theorem stripComments_literal_escaped :
    stripComments .literal ('\\' :: c :: rest)
      = ('\\' :: c :: (stripComments .literal rest).1, (stripComments .literal rest).2) := by
  simp

/-- The inside of a literal is passed as it is. -/
theorem stripComments_quoted_append (h : IsQuoted body) : stripComments .literal (body ++ rest)
    = (body ++ (stripComments .literal rest).1, (stripComments .literal rest).2) := by
  induction h with
  | nil => rfl
  | plain quote backslash _ ih =>
    rw [List.cons_append, stripComments_literal_plain quote backslash, ih]
    rfl
  | escaped _ ih =>
    rw [List.cons_append, List.cons_append, stripComments_literal_escaped, ih]
    rfl

theorem stripComments_isUnclosed (h : IsUnclosed body) :
    stripComments .literal body = (body, .literal) := by
  obtain h | ⟨front, hfront, rfl⟩ := h
  · rw [← List.append_nil body, stripComments_quoted_append h]
    rfl
  · rw [stripComments_quoted_append hfront]
    rfl

theorem stripComments_comment_cons (h : ¬ ['*', '/'] <+: c :: rest) :
    stripComments .comment (c :: rest) = stripComments .comment rest := by
  rw [stripComments]
  rintro tail rfl rfl
  exact h (List.prefix_append ['*', '/'] tail)

theorem stripComments_isUnended (h : IsUnended body) :
    stripComments .comment body = ([], .comment) := by
  induction body with
  | nil => rfl
  | cons c body ih =>
    obtain ⟨hhead, hbody⟩ := isUnended_cons_iff.1 h
    rw [stripComments_comment_cons hhead, ih hbody]

/-- The rest of a block comment is passed, and leaves a space. -/
theorem stripComments_endComment (h : IsUnended body) :
    stripComments .comment (body ++ '*' :: '/' :: rest)
      = (' ' :: (stripComments .code rest).1, (stripComments .code rest).2) := by
  induction body with
  | nil => simp
  | cons c body ih =>
    obtain ⟨hhead, hbody⟩ := isUnended_cons_iff.1 h
    rw [List.cons_append, stripComments_comment_cons, ih hbody]
    -- The comment cannot end with its first character, also if nothing else is in it.
    intro hprefix
    cases body with
    | nil => simp at hprefix
    | cons d body =>
      obtain ⟨rfl, htail⟩ := List.cons_prefix_cons.1 hprefix
      obtain ⟨rfl, -⟩ := List.cons_prefix_cons.1 htail
      exact hhead (List.prefix_append ['*', '/'] body)

theorem visible_append (front back : List Char) :
    visible (front ++ back) = visible front ++ visible back :=
  List.filter_append front back

theorem visible_cons_congr (c : Char) (h : visible rest = visible left) :
    visible (c :: rest) = visible (c :: left) := by
  rw [← List.singleton_append, visible_append, h, ← visible_append, List.singleton_append]

/-- **What the scanner gives for a line** is what the line leaves, up to blanks, and how it ends. -/
theorem stripComments_of_leaves (h : Leaves mode cs left e) :
    visible (stripComments mode cs).1 = visible left ∧ (stripComments mode cs).2 = e.mode := by
  induction h with
  | done => exact ⟨rfl, rfl⟩
  | code quote mark _ ih =>
    rw [stripComments_code_cons quote mark]
    exact ⟨visible_cons_congr _ ih.1, ih.2⟩
  | literal inside _ ih =>
    rw [stripComments, stripComments_quoted_append inside, stripComments]
    refine ⟨visible_cons_congr _ ?_, ih.2⟩
    rw [visible_append, visible_cons_congr _ ih.1, ← visible_append]
  | openLiteral inside =>
    rw [stripComments, stripComments_isUnclosed inside]
    exact ⟨rfl, rfl⟩
  | lineComment body => simp [Ending.mode]
  | blockComment _ ih =>
    rw [stripComments]
    exact ih
  | endComment inside _ ih =>
    rw [stripComments_endComment inside]
    exact ih
  | openComment inside =>
    rw [stripComments_isUnended inside]
    exact ⟨rfl, rfl⟩

end ShaderMerge.LogicalLine
