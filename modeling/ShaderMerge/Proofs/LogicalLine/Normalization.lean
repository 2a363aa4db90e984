import ShaderMerge.Proofs.Include.Run
import ShaderMerge.Proofs.LogicalLine.Errors

/-!
# Normalized files

`normalizes_of_ofRaw`: the logical lines of a file are the text of its raw lines, joined and without
their comments, cut at the top and nowhere else; and a logical line is its own only logical line.
The one exception is a line that ends in a backslash: alone, it would go on.
-/

namespace ShaderMerge.LogicalLine

open Text

/-- Logical lines that say what raw lines say. -/
structure Normalizes (raw : List String) (lines : List String) : Prop where
  /-- All joined lines can be read, up to the end of the last one in code. -/
  readable : ∃ lefts, LeavesAll .code ((groups (raw.map String.toList)).map joined) lefts .code
  /-- What they leave without their comments is kept in order, up to blanks. -/
  text : ∀ lefts, LeavesAll .code ((groups (raw.map String.toList)).map joined) lefts .code →
    visible (lines.flatMap String.toList) = visible lefts.flatten
  /-- Each line is a directive, a brace or a statement. -/
  logical : ∀ line ∈ lines, IsLogical line.toList
  /-- Alone, each line is its own only logical line. -/
  stable : ∀ line ∈ lines, line.toList.getLast? ≠ some '\\' →
    ∀ file, ∃ names, ofRaw file [line] = .ok ⟨[line], names⟩

variable {cs : List Char} {raw : List String} {n : Normalized} {file line : String}

/-! ## Logical lines alone -/

/-- A trimmed text does not end in a blank. -/
theorem isBlank_of_trimmed_concat {front : List Char} {c : Char}
    (h : trimmed (front ++ [c]) = front ++ [c]) : isBlank c = false := by
  have hskip : skipBlanksEnd (front ++ [c]) = front ++ [c] := by
    rw [← h, trimmed, Condition.skipBlanksEnd_skipBlanksEnd]
  rw [skipBlanksEnd, dropEndWhile, List.reverse_concat, List.reverse_eq_iff, List.reverse_concat,
    List.dropWhile_eq_self_iff] at hskip
  simpa using hskip

/-- A trimmed line has no line end to take off. -/
theorem withoutLineEnd_of_trimmed (h : trimmed cs = cs) : withoutLineEnd cs = cs := by
  obtain rfl | ⟨front, c, rfl⟩ := cs.eq_nil_or_concat'
  · rfl
  · have hc := isBlank_of_trimmed_concat h
    rw [withoutLineEnd, dropEndWhile, List.reverse_concat, List.dropWhile_cons_of_neg]
    · rw [List.reverse_cons, List.reverse_reverse]
    · simp only [Bool.or_eq_true, beq_iff_eq]
      rintro (rfl | rfl)
      · cases hc
      · cases hc

/-- A trimmed line that does not end in a backslash does not go on. -/
theorem goesOn_of_trimmed (h : trimmed cs = cs) (hend : cs.getLast? ≠ some '\\') :
    goesOn cs = false := by
  rw [Bool.eq_false_iff]
  intro hgoes
  obtain ⟨front, gap, hgap, rfl⟩ := goesOn_iff.1 hgoes
  obtain rfl | ⟨gap, b, rfl⟩ := gap.eq_nil_or_concat'
  · simp at hend
  · rw [← List.cons_append, ← List.append_assoc] at h
    have hb := hgap b (by simp)
    rw [isBlank_of_trimmed_concat h] at hb
    cases hb

theorem joinContinued_of_trimmed (h : trimmed cs = cs) (hend : cs.getLast? ≠ some '\\') :
    joinContinued [cs] = [cs] := by
  have hgoes := goesOn_of_trimmed h hend
  have hshare : share cs = cs := by
    rw [goesOn, Option.isSome_eq_false_iff, Option.isNone_iff_eq_none] at hgoes
    rw [share, hgoes, withoutLineEnd_of_trimmed h]
    rfl
  rw [joinContinued, joinContinuedFrom_cons_of_not_goesOn hgoes, hshare]
  rfl

/-- A line without comments marks no region. -/
theorem promoteRegion_of_isBare (h : IsBare .code cs) : promoteRegion cs = cs := by
  have hnone : ∀ word : String, startsComment word.toList = true → after? word cs = none := by
    intro word hword
    rw [Option.eq_none_iff_forall_ne_some]
    intro rest hrest
    rw [after?_eq_some_iff] at hrest
    subst hrest
    cases hcs : word.toList ++ rest with
    | nil =>
      rw [(List.append_eq_nil_iff.1 hcs).1] at hword
      cases hword
    | cons c tail =>
      rw [hcs] at h
      have hmark := h.1 rfl
      rw [← hcs] at hmark
      rw [startsComment_of_append hmark] at hword
      cases hword
  rw [promoteRegion, hnone "//ifex" (by decide), hnone "//endex" (by decide)]
  rfl

/-- **A logical line is read as itself.** -/
theorem ofRaw_of_isLogical (h : IsLogical line.toList) (hend : line.toList.getLast? ≠ some '\\')
    (file : String) : ∃ names, ofRaw file [line] = .ok ⟨[line], names⟩ := by
  have hskip : skipBlanks line.toList = line.toList := by
    rw [← h.trimmed, Condition.skipBlanks_trimmed]
  have hline : ∃ names, (⟨false, [], []⟩ : Progress).line? line.toList
      = some ⟨false, [line], names⟩ := by
    rw [Progress.line?, ← bare, bare, if_neg Bool.false_ne_true, hskip, promoteRegion_of_isBare h.bare,
      (stripComments_of_isBare line.toList).1 h.bare]
    dsimp only
    rw [if_neg (by decide), h.trimmed]
    split
    · rename_i hempty
      exact absurd hempty h.nonempty
    · exact ⟨_, by rw [String.ofList_toList]; rfl⟩
    · rename_i hdirective
      refine ⟨[], ?_⟩
      have hmark : line.toList.head? ≠ some '#' := by
        intro hhead
        obtain ⟨tail, htail⟩ := List.head?_eq_some_iff.1 hhead
        exact hdirective tail htail
      rw [Splitter.split_of_isLogical h hmark, String.ofList_toList]
      rfl
  obtain ⟨names, hline⟩ := hline
  refine ⟨names, ?_⟩
  rw [ofRaw, List.map_singleton, joinContinued_of_trimmed h.trimmed hend, normalizeFrom, hline]
  rfl

/-! ## Main result -/

/-- **The logical lines of a file** say what its raw lines say, and each stands for itself. -/
theorem normalizes_of_ofRaw (h : ofRaw file raw = .ok n) : Normalizes raw n.lines := by
  have hread : ∀ lefts, LeavesAll .code ((groups (raw.map String.toList)).map joined) lefts .code →
      visible (n.lines.flatMap String.toList) = visible lefts.flatten ∧
        ∀ line ∈ n.lines, IsLogical line.toList := by
    intro lefts hlines
    obtain ⟨p', hfollows, hend⟩ := ofRaw_of_leavesAll hlines (by decide)
    rw [h, if_neg (by decide)] at hend
    cases hend
    exact ⟨hfollows.text, fun line hline => hfollows.logical line (List.mem_reverse.1 hline)⟩
  have hreadable :
      ∃ lefts, LeavesAll .code ((groups (raw.map String.toList)).map joined) lefts .code := by
    obtain ⟨lefts, mode, hmode, hlines⟩ | hopens :=
      leavesAll_or_opens (show Mode.code ≠ .literal by decide)
        ((groups (raw.map String.toList)).map joined)
    · cases mode with
      | code => exact ⟨lefts, hlines⟩
      | literal => exact absurd rfl hmode
      | comment =>
        obtain ⟨p', -, hend⟩ := ofRaw_of_leavesAll hlines (by decide)
        rw [h] at hend
        cases hend
    · obtain ⟨earlier, opening, later, hraw, hfirst⟩ := exists_opensFirst hopens
      rw [ofRaw_of_opensFirst hraw hfirst] at h
      cases h
  obtain ⟨lefts, hlines⟩ := hreadable
  have hlogical := (hread lefts hlines).2
  exact ⟨⟨lefts, hlines⟩, fun lefts hlines => (hread lefts hlines).1, hlogical,
    fun line hline hend => ofRaw_of_isLogical (hlogical line hline) hend⟩

/-- Lines with a region, a continued line, comments, a literal and a brace that is joined. -/
def mixedLines : List String :=
  ["//ifex _A == 1", "struct S \x7b float4 a : A; \\", "  float b; /* ; \"", "", "*/ \x7d",
    "; x = \"//\\\"\x7b\"; f(a; b) // c", "#define G ; \x7d // d", "//endex here"]

theorem normalizes_of_mixedLines :
    ∃ n, ofRaw "a.cginc" mixedLines = .ok n ∧
      n = ⟨["#ifex _A == 1", "struct S", "\x7b", "float4 a : A;", "float b;", "\x7d;",
        "x = \"//\\\"\x7b\";", "f(a; b)", "#define G ; \x7d", "#endex"], ["_A"]⟩ ∧
      Normalizes mixedLines n.lines := by
  have hcheck : (ofRaw "a.cginc" mixedLines).toOption.any (fun n => decide (n =
      ⟨["#ifex _A == 1", "struct S", "\x7b", "float4 a : A;", "float b;", "\x7d;",
        "x = \"//\\\"\x7b\";", "f(a; b)", "#define G ; \x7d", "#endex"], ["_A"]⟩)) = true := by
    decide +kernel
  obtain ⟨n, hn, hlines⟩ := exists_ok_of_any hcheck
  exact ⟨n, hn, of_decide_eq_true hlines, normalizes_of_ofRaw hn⟩

end ShaderMerge.LogicalLine
