import ShaderMerge.Proofs.LogicalLine.Joining
import ShaderMerge.Proofs.LogicalLine.Lines

/-!
# The errors of the logical lines

A file is refused for the first literal that is left open on a joined line, or for a block comment that
is open at its end, and for nothing else (`ofRaw_errors`).

`OpensFirst` finds the raw line on which that literal opens.  The error counts joined lines: its number
is that of the raw line exactly if no line in front of it goes on.
-/

namespace ShaderMerge.LogicalLine

/-- A raw line on which the first literal opens that its joined line leaves open, between the raw lines
around it. -/
inductive OpensFirst : List (List Char) → List Char → List (List Char) → Prop where
  /-- What stands behind the quote goes on up to the end of the joined line. -/
  | intro {before after : List (List (List Char))} {front back lefts : List (List Char)}
      {line left code inside : List Char} {mode : Mode}
      (grouped : groups (before.flatten ++ front ++ line :: (back ++ after.flatten))
        = before ++ (front ++ line :: back) :: after)
      (closed : LeavesAll .code (before.map joined) lefts mode)
      (quote : share line = code ++ '"' :: inside)
      (opens : Leaves mode (marked mode (joined (front ++ line :: back))) left
        (.literal (inside ++ joined back))) :
      OpensFirst (before.flatten ++ front) line (back ++ after.flatten)

variable {c : Char} {body cs front left line rest : List Char} {mode mode' : Mode} {e : Ending}
  {earlier group later lefts lines raw : List (List Char)} {file : String} {strings : List String}

/-! ## Where a literal opens -/

/-- The literal that a line leaves open is its end. -/
theorem Leaves.suffix (h : Leaves mode cs left (.literal body)) : '"' :: body <:+ cs := by
  generalize he : Ending.literal body = e at h
  induction h with
  | done => cases he
  | code _ _ _ ih => exact (ih he).trans (List.suffix_cons _ _)
  | @literal inside rest _ _ _ _ ih =>
    exact (ih he).trans ⟨'"' :: (inside ++ ['"']), by simp⟩
  | openLiteral =>
    cases he
    exact List.suffix_rfl
  | lineComment => cases he
  | blockComment _ ih => exact (ih he).trans ⟨['/', '*'], rfl⟩
  | @endComment inside rest _ _ _ _ ih => exact (ih he).trans ⟨inside ++ ['*', '/'], by simp⟩
  | openComment => cases he

/-- A text without the character does not reach into what starts with it. -/
theorem suffix_of_suffix_append (hfront : c ∉ front) (h : c :: cs <:+ front ++ rest) :
    c :: cs <:+ rest := by
  obtain ⟨before, heq⟩ := h
  obtain ⟨between, hbefore, htail⟩ | ⟨between, -, htail⟩ := List.append_eq_append_iff.1 heq
  · cases between with
    | nil => exact ⟨[], htail⟩
    | cons d between =>
      rw [hbefore, (List.cons.inj htail).1] at hfront
      exact absurd (by simp) hfront
  · exact ⟨between, htail.symm⟩

/-- The directive of a region has no quote that does not stand on its line. -/
theorem suffix_of_suffix_marked (h : '"' :: body <:+ marked mode line) : '"' :: body <:+ line := by
  cases mode with
  | literal => exact h
  | comment => exact h
  | code =>
    refine List.IsSuffix.trans ?_ (List.dropWhile_suffix Text.isBlank)
    rw [marked, promoteRegion] at h
    split at h
    · rename_i condition hcondition
      rw [← Text.skipBlanks, Text.after?_eq_some_iff.1 hcondition]
      exact (suffix_of_suffix_append (by decide) h).trans (List.suffix_append _ _)
    · split at h
      · have hnone : '"' ∉ "#endex".toList := by decide
        have hnil : '"' :: body <:+ [] :=
          suffix_of_suffix_append hnone (by rwa [List.append_nil])
        exact absurd (List.suffix_nil.1 hnil) (List.cons_ne_nil _ _)
      · exact h

/-- A character of a joined line stands on one of its raw lines. -/
theorem exists_share (h : c :: body <:+ joined group) : ∃ front line back code inside,
    group = front ++ line :: back ∧ share line = code ++ c :: inside
      ∧ body = inside ++ joined back := by
  induction group with
  | nil => exact absurd (List.suffix_nil.1 h) (List.cons_ne_nil _ _)
  | cons first group ih =>
    obtain ⟨before, heq⟩ := h
    rw [joined, List.flatMap_cons] at heq
    have hgroup : c :: body <:+ joined group → ∃ front line back code inside,
        first :: group = front ++ line :: back ∧ share line = code ++ c :: inside
          ∧ body = inside ++ joined back := by
      intro h
      obtain ⟨front, line, back, code, inside, rfl, hline⟩ := ih h
      exact ⟨first :: front, line, back, code, inside, rfl, hline⟩
    obtain ⟨between, hfirst, htail⟩ | ⟨between, -, htail⟩ := List.append_eq_append_iff.1 heq
    · cases between with
      | nil => exact hgroup ⟨[], htail⟩
      | cons d inside =>
        obtain ⟨hd, hbody⟩ := List.cons.inj htail
        exact ⟨[], first, group, before, inside, rfl, hd ▸ hfirst, hbody⟩
    · exact hgroup ⟨between, htail.symm⟩

/-- If a joined line leaves a literal open, some raw line opens the first one. -/
theorem exists_opensFirst (h : Opens .code ((groups raw).map joined)) :
    ∃ earlier line later, raw = earlier ++ line :: later ∧ OpensFirst earlier line later := by
  obtain ⟨before, opening, after, lefts, mode, left, body, heq, hbefore, hopening⟩ := h
  obtain ⟨before, tail, hgroups, rfl, htail⟩ := List.map_eq_append_iff.1 heq
  obtain ⟨group, after, rfl, rfl, rfl⟩ := List.map_eq_cons_iff.1 htail
  obtain ⟨front, line, back, code, inside, rfl, hline, rfl⟩ :=
    exists_share (suffix_of_suffix_marked hopening.suffix)
  have hraw : raw = before.flatten ++ front ++ line :: (back ++ after.flatten) := by
    rw [← List.flatten_splitBy (fun line _ => goesOn line) raw, ← groups, hgroups]
    simp
  exact ⟨_, line, _, hraw, .intro (hraw ▸ hgroups) hbefore hline hopening⟩

/-! ## What a file gives -/

/-- **A file without an open literal** is read up to its end, where no block comment may be open. -/
theorem ofRaw_of_leavesAll
    (h : LeavesAll .code ((groups (strings.map String.toList)).map joined) lefts mode)
    (hmode : mode ≠ .literal) : ∃ p', Follows ⟨false, [], []⟩ lefts.flatten mode p' ∧
      ofRaw file strings = if mode = .comment then .error (.openComment file)
        else .ok ⟨p'.done.reverse, p'.regionNames⟩ := by
  have hstart : ∀ line ∈ (⟨false, [], []⟩ : Progress).done, IsLogical line.toList := nofun
  obtain ⟨p', hfollows, hrest⟩ := normalizeFrom_append file 1 h (by decide) hmode rfl hstart
  refine ⟨p', hfollows, ?_⟩
  have hend := hrest []
  rw [List.append_nil, normalizeFrom, hfollows.inComment] at hend
  rw [ofRaw_eq, hend]
  simp only [decide_eq_true_eq]

/-- No line is read behind one that leaves a literal open. -/
theorem Leaves.ne_literal (h : Leaves mode cs left e) : mode ≠ .literal := by
  rintro rfl
  cases h

/-- **A file with an open literal** is refused with the number of the joined line. -/
theorem ofRaw_of_opensFirst (hraw : strings.map String.toList = earlier ++ line :: later)
    (h : OpensFirst earlier line later) : ofRaw file strings
      = .error (.openString file ((earlier.filter fun line => !goesOn line).length + 1)) := by
  obtain @⟨before, after, front, back, lefts, line, left, code, inside, mode, grouped, closed, quote,
    opens⟩ := h
  have hmode := opens.ne_literal
  have hstart : ∀ line ∈ (⟨false, [], []⟩ : Progress).done, IsLogical line.toList := nofun
  obtain ⟨p', hfollows, hrest⟩ := normalizeFrom_append file 1 closed (by decide) hmode rfl hstart
  have hline : p'.line? (joined (front ++ line :: back)) = none := by
    obtain ⟨-, hnone⟩ | ⟨hliteral, -⟩ :=
      line?_of_leaves hmode hfollows.inComment hfollows.logical opens
    · exact hnone
    · exact absurd rfl hliteral
  -- The lines in front that do not go on are the ends of the groups before.
  have hcount : ((before.flatten ++ front).filter fun line => !goesOn line).length
      = before.length := by
    have hgroup := List.mem_append_right before
      (List.mem_cons_self (a := front ++ line :: back) (l := after))
    rw [← grouped] at hgroup
    have hfront : front.filter (fun line => !goesOn line) = [] := by
      rw [List.filter_eq_nil_iff]
      intro line hline
      simp [goesOn_of_mem_groups hgroup line hline]
    rw [List.filter_append, hfront, List.append_nil, length_filter_flatten grouped]
  rw [ofRaw_eq, hraw, grouped, List.map_append, List.map_cons, hrest, normalizeFrom, hline, hcount,
    List.length_map, Nat.add_comm]

/-- **The errors of a file.**  A literal that a joined line leaves open is reported with the number of
the joined line: one more than the raw lines in front of it that do not go on. -/
theorem ofRaw_errors (file : String) (strings : List String) :
    (∀ e, ofRaw file strings = .error e ↔
      (∃ earlier line later, strings.map String.toList = earlier ++ line :: later ∧
        OpensFirst earlier line later ∧
        e = .openString file ((earlier.filter fun line => !goesOn line).length + 1)) ∨
      (∃ lefts, LeavesAll .code ((groups (strings.map String.toList)).map joined) lefts .comment) ∧
        e = .openComment file) ∧
    ∀ earlier line later, strings.map String.toList = earlier ++ line :: later →
      OpensFirst earlier line later →
      (ofRaw file strings = .error (.openString file (earlier.length + 1)) ↔
        ∀ line ∈ earlier, goesOn line = false) := by
  refine ⟨fun e => ⟨fun h => ?_, ?_⟩, fun earlier line later hraw hopens => ?_⟩
  · obtain ⟨lefts, mode, hmode, hlines⟩ | hopens :=
      leavesAll_or_opens (show Mode.code ≠ .literal by decide)
        ((groups (strings.map String.toList)).map joined)
    · obtain ⟨p', -, hend⟩ := ofRaw_of_leavesAll hlines hmode
      rw [hend] at h
      split at h
      · rename_i hcomment
        cases h
        exact .inr ⟨⟨lefts, hcomment ▸ hlines⟩, rfl⟩
      · cases h
    · obtain ⟨earlier, line, later, hraw, hfirst⟩ := exists_opensFirst hopens
      rw [ofRaw_of_opensFirst hraw hfirst] at h
      cases h
      exact .inl ⟨earlier, line, later, hraw, hfirst, rfl⟩
  · rintro (⟨earlier, line, later, hraw, hfirst, rfl⟩ | ⟨⟨lefts, hlines⟩, rfl⟩)
    · exact ofRaw_of_opensFirst hraw hfirst
    · obtain ⟨p', -, hend⟩ := ofRaw_of_leavesAll hlines (by decide)
      exact hend
  · rw [ofRaw_of_opensFirst hraw hopens, Except.error.injEq, ShaderError.openString.injEq,
      and_iff_right rfl, Nat.add_right_cancel_iff, List.length_filter_eq_length_iff]
    simp

end ShaderMerge.LogicalLine
