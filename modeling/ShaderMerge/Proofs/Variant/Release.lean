import ShaderMerge.Proofs.Variant.Emission
import ShaderMerge.Proofs.Variant.SignatureDirectives

/-!
# When held back directives are written

A program block holds back the lines of a signature, and what is written meanwhile joins them.  The
directives among them stay there until the signature is released, and then they are written together
(`passes_line`), whether it is written anew or not.  So in an event a writer either goes on holding
its directives back or puts all of them where it writes (`delivers_event`).
-/

namespace ShaderMerge.Variant

open Include (Walk Event isProgramStart isBlockEnd)

namespace Program

/-- Whether a block holds a signature back. -/
def isHolding (p : Program) : Bool := p.pending.isSome

/-- Whether a signature that is held back starts with a line of code. -/
def StartsInCode (p : Program) : Prop :=
  ∀ pending, p.pending = some pending →
    ∃ first rest, pending.lines = first :: rest ∧ Directive.isMarked first = false

/-- What becomes of the directives that are held back: they still are, or they are written. -/
structure Passes (p : Program) (out : Program × List String) : Prop where
  started : out.1.StartsInCode
  directives : (p.held.filter Directive.isMarked).Sublist
    ((if out.1.isHolding then out.1.held else out.2).filter Directive.isMarked)

variable {t : Substitution} {p q : Program} {out : Program × List String} {line : String}
  {pending : Pending}

theorem StartsInCode.of_none (h : p.pending = none) : p.StartsInCode := by
  intro pending hpending
  rw [h] at hpending
  cases hpending

/-- Without a signature there is nothing to release. -/
theorem passes_of_none (hpending : p.pending = none) (h : out.1.StartsInCode) : Passes p out where
  started := h
  directives := by
    rw [held_of_none hpending]
    exact List.nil_sublist _

/-- A signature becomes longer. -/
theorem passes_longer (h : p.StartsInCode) (hpending : p.pending = some pending) {later : Pending}
    {more : List String} (hlater : out.1.pending = some later)
    (hlines : later.lines = pending.lines ++ more) : Passes p out where
  started pending' hpending' := by
    rw [hlater] at hpending'
    cases hpending'
    obtain ⟨first, rest, heq, hfirst⟩ := h pending hpending
    exact ⟨first, rest ++ more, by rw [hlines, heq]; rfl, hfirst⟩
  directives := by
    rw [isHolding, hlater, Option.isSome_some, if_pos rfl, held_of_some hpending,
      held_of_some hlater, hlines]
    exact (List.sublist_append_left _ _).filter _

/-- A signature is released. -/
theorem passes_released (hpending : p.pending = some pending) (hnone : out.1.pending = none)
    (h : (pending.lines.filter Directive.isMarked).Sublist (out.2.filter Directive.isMarked)) :
    Passes p out where
  started := .of_none hnone
  directives := by
    rw [isHolding, hnone, held_of_some hpending]
    exact h

theorem passes_write (h : p.StartsInCode) (lines : List String) :
    Passes p (p.write lines) ∧ (p.write lines).1.isHolding = p.isHolding := by
  cases hpending : p.pending with
  | none =>
    have hwrite : p.write lines = (p, lines) := by rw [write, hpending]
    rw [hwrite]
    exact ⟨passes_of_none hpending h, rfl⟩
  | some pending =>
    refine ⟨passes_longer h hpending (by rw [write, hpending]) rfl, ?_⟩
    rw [write, hpending, isHolding, isHolding, hpending]
    rfl

theorem passes_feed (h : p.StartsInCode) (line : String) :
    Passes p ((p.feed line).1, (p.feed line).2.1) ∧ (p.feed line).1.isHolding = p.isHolding := by
  obtain ⟨hpasses, hsame⟩ :=
    @passes_write { p with filter := (p.filter.feed line).filter } h (p.filter.feed line).written
  exact ⟨⟨hpasses.started, hpasses.directives⟩, hsame⟩

/-! ## Outside of signatures -/

theorem pending_globalLine (t : Substitution) (p : Program) (line : String) :
    (p.globalLine t line).1.pending = p.pending := by
  have hdeclaration : ∀ {q : Program} {out : Program × List String},
      q.declaration? t line = some out → out.1.pending = q.pending := by
    intro q out h
    simp only [declaration?, Option.bind_eq_bind, Option.bind_eq_some_iff] at h
    obtain ⟨⟨type, name⟩, -, declaration, -, h⟩ := h
    split at h
    · split at h <;> cases h <;> rfl
    · split at h <;> cases h <;> rfl
  have hrest : ∀ q : Program, q.pending = p.pending → (if q.isAtDeclarations then
      if t.declaresTexture line then (q, []) else (q.declaration? t line).getD (q, [line])
      else (q, [line])).1.pending = p.pending := by
    intro q hsame
    split
    · split
      · exact hsame
      · cases hfound : q.declaration? t line with
        | none => exact hsame
        | some out => exact (hdeclaration hfound).trans hsame
    · exact hsame
  simp only [globalLine]
  split
  · exact hrest _ rfl
  · exact hrest p rfl

/-- A signature starts with the line that starts it. -/
theorem startsInCode_statement (hpending : p.pending = none)
    (hline : Directive.isMarked line = false) : (p.statement t line).1.StartsInCode := by
  rw [statement.eq_def]
  split
  · exact .of_none hpending
  · split
    · rintro pending ⟨⟩
      exact ⟨line, [], rfl, hline⟩
    · split
      · exact .of_none hpending
      · split
        · exact .of_none hpending
        · exact .of_none ((pending_globalLine t p line).trans hpending)

theorem startsInCode_openBrace (hpending : p.pending = none) (line : String) :
    (p.openBrace line).1.StartsInCode := by
  simp only [openBrace]
  split
  · exact .of_none hpending
  · exact .of_none hpending

theorem startsInCode_closeBrace (hpending : p.pending = none) (line : String) :
    (p.closeBrace line).1.StartsInCode := by
  simp only [closeBrace]
  split
  · exact .of_none hpending
  · exact .of_none hpending

/-! ## Lines of a signature -/

/-- A signature that is written anew has the directives of the one that was held back. -/
theorem passes_enter (h : p.StartsInCode) (hpending : p.pending = some pending)
    (hread : p.enter t pending line = .ok out) : Passes p out := by
  rw [enter] at hread
  obtain ⟨entry, hadapt, hread⟩ := exists_ok_of_bind hread
  cases hread
  obtain ⟨first, rest, hlines, hfirst⟩ := h pending hpending
  refine passes_released hpending rfl ?_
  rw [hlines] at hadapt
  rw [hlines, ← EntryPoint.filter_isMarked_adapt hfirst hadapt]
  refine List.Sublist.filter _ ?_
  simp only [List.append_assoc]
  exact (List.sublist_append_left _ _).trans (List.sublist_append_right _ _)

theorem passes_signatureLine (h : p.StartsInCode) (hpending : p.pending = some pending)
    (hread : p.signatureLine t pending line = .ok out) : Passes p out := by
  simp only [signatureLine] at hread
  split at hread
  · cases hread
    exact passes_longer h hpending rfl rfl
  · split at hread
    · exact passes_enter h hpending hread
    · split at hread
      · cases hread
        exact passes_released hpending rfl ((List.sublist_append_left _ _).filter _)
      · cases hread
        exact passes_longer h hpending rfl rfl

/-! ## All lines -/

theorem passes_liveLine (h : p.StartsInCode) (hread : p.liveLine t line = .ok out) :
    Passes p out := by
  rw [liveLine.eq_def] at hread
  split at hread
  · cases hread
    exact (passes_write h [line]).1
  · rename_i hmarked
    split at hread
    · rename_i pending hpending
      exact passes_signatureLine h hpending hread
    · rename_i hpending
      cases hread
      refine passes_of_none hpending ?_
      split
      · exact startsInCode_openBrace hpending line
      · split
        · exact startsInCode_closeBrace hpending line
        · exact startsInCode_statement hpending (Bool.eq_false_iff.2 hmarked)

/-- **A line of a block.**  The directives that are held back stay there, or are written. -/
theorem passes_line (h : p.StartsInCode) (hread : p.line t line = .ok out) : Passes p out := by
  have hfeed : p.feed line = ((p.feed line).1, (p.feed line).2.1, (p.feed line).2.2) := rfl
  obtain ⟨hfed, hsame⟩ := passes_feed h line
  rw [Program.line, hfeed] at hread
  cases hpass : (p.feed line).2.2 with
  | consumed =>
    rw [hpass] at hread
    cases hread
    exact hfed
  | live =>
    rw [hpass] at hread
    obtain ⟨⟨q, more⟩, hlive, heq⟩ := exists_ok_of_map hread
    cases heq
    have hpasses := passes_liveLine hfed.started hlive
    refine ⟨hpasses.started, ?_⟩
    cases hpending : p.pending with
    | none =>
      rw [held_of_none hpending]
      exact List.nil_sublist _
    | some pending =>
      -- What the filter writes has joined the signature.
      have hholding : (p.feed line).1.isHolding = true := by
        rw [hsame, isHolding, hpending]
        rfl
      have hdirectives := hfed.directives
      rw [if_pos hholding] at hdirectives
      refine (hdirectives.trans hpasses.directives).trans ?_
      cases q.isHolding with
      | true => exact List.Sublist.refl _
      | false => exact (List.sublist_append_right _ _).filter _

end Program

namespace Writer

/-- Whether the program block that is being written holds a signature back. -/
def isHolding (w : Writer) : Bool := w.program.any Program.isHolding

/-- Whether a signature that is held back starts with a line of code. -/
def StartsInCode (w : Writer) : Prop := ∀ p, w.program = some p → p.StartsInCode

/-- Lines are written, and among them the directives that have been held back and are not any
more. -/
structure Delivers (w w' : Writer) (lines : List String) : Prop where
  puts : Puts w w' lines
  started : w'.StartsInCode
  directives : (w.held.filter Directive.isMarked).Sublist
    ((if w'.isHolding then w'.held else lines).filter Directive.isMarked)

variable {r : Request} {w w' : Writer} {line : String} {lines : List String}

theorem isHolding_put (w : Writer) (lines : List String) :
    (w.put lines).isHolding = w.isHolding := by
  rw [isHolding, put_program, isHolding]

/-- Unless a signature is held back, lines are written at once. -/
theorem write_of_not_isHolding (h : w.isHolding = false) (lines : List String) :
    w.write lines = w.put lines := by
  cases hprogram : w.program with
  | none => exact write_of_none hprogram
  | some p =>
    rw [isHolding, hprogram] at h
    have hpending := Option.isNone_iff_eq_none.1 (Option.isSome_eq_false_iff.1 h)
    have hwrite : p.write lines = (p, lines) := by rw [Program.write, hpending]
    rw [write_of_some hprogram, hwrite, ← hprogram]

/-- Lines that are written join a signature that is held back. -/
theorem write_of_isHolding (h : w.isHolding = true) (lines : List String) :
    ∃ p, w.write lines = { w with program := some p } ∧ p.held = w.held ++ lines := by
  obtain ⟨p, hprogram, hholding⟩ := (Option.any_eq_true _ _).1 h
  obtain ⟨pending, hpending⟩ := Option.isSome_iff_exists.1 hholding
  rw [write_of_some hprogram, Program.write, hpending, put_nil]
  refine ⟨_, rfl, ?_⟩
  rw [held_of_some hprogram, Program.held_of_some hpending]
  rfl

/-- Outside of program blocks nothing is held back. -/
theorem delivers_outer (hprogram : w.program = none) (hputs : Puts w w' lines)
    (h : w'.StartsInCode) : Delivers w w' lines where
  puts := hputs
  started := h
  directives := by
    rw [held_of_none hprogram]
    exact List.nil_sublist _

theorem delivers_program {p p' : Program} (hprogram : w.program = some p)
    (h : Program.Passes p (p', lines)) :
    Delivers w ({ w with program := some p' }.put lines) lines where
  puts := puts_put { w with program := some p' } lines
  started q hq := by
    rw [put_program] at hq
    cases hq
    exact h.started
  directives := by
    rw [held_of_some hprogram, isHolding_put, held_put]
    exact h.directives

theorem delivers_write (h : w.StartsInCode) (lines : List String) :
    ∃ out, Delivers w (w.write lines) out := by
  cases hprogram : w.program with
  | none =>
    rw [write_of_none hprogram]
    refine ⟨lines, delivers_outer hprogram (puts_put w lines) ?_⟩
    intro p hp
    rw [put_program, hprogram] at hp
    cases hp
  | some p =>
    rw [write_of_some hprogram]
    exact ⟨_, delivers_program hprogram (Program.passes_write (h p hprogram) lines).1⟩

theorem startsInCode_write (h : w.StartsInCode) (lines : List String) :
    (w.write lines).StartsInCode := by
  obtain ⟨out, hwrite⟩ := delivers_write h lines
  exact hwrite.started

theorem isHolding_write (w : Writer) (h : w.StartsInCode) (lines : List String) :
    (w.write lines).isHolding = w.isHolding := by
  cases hprogram : w.program with
  | none => rw [write_of_none hprogram, isHolding_put]
  | some p =>
    rw [write_of_some hprogram, isHolding_put, isHolding, isHolding, hprogram]
    exact (Program.passes_write (h p hprogram) lines).2

/-- Whatever is written behind them, the directives stay where they are. -/
theorem Delivers.write (h : Delivers w w' lines) (more : List String) :
    ∃ out, Delivers w (w'.write more) out := by
  obtain ⟨out, hwrite⟩ := delivers_write h.started more
  refine ⟨lines ++ out, h.puts.trans hwrite.puts, hwrite.started, ?_⟩
  have hfirst := h.directives
  have hsecond := hwrite.directives
  rw [isHolding_write w' h.started] at hsecond ⊢
  cases hholding : w'.isHolding with
  | true =>
    rw [hholding] at hfirst hsecond
    exact hfirst.trans hsecond
  | false =>
    rw [hholding] at hfirst
    exact hfirst.trans ((List.sublist_append_left _ _).filter _)

theorem delivers_feedRegions (h : w.StartsInCode) (line : String) :
    ∃ out, Delivers w (w.feedRegions line).1 out := by
  obtain ⟨out, hwrite⟩ := @delivers_write { w with regions := (w.regions.feed line).filter } h
    (w.regions.feed line).written
  exact ⟨out, hwrite.puts, hwrite.started, hwrite.directives⟩

theorem delivers_outerLine (hprogram : w.program = none) (h : w.outerLine r line = .ok w') :
    ∃ out, Delivers w w' out := by
  have hstarted : ∀ {w'}, Keeps w w' → w'.StartsInCode := by
    intro w' hkeeps p hp
    have hsame := hkeeps.program
    rw [hprogram, hp] at hsame
    cases hsame
  rw [outerLine] at h
  split at h
  · obtain ⟨plan, -, rfl⟩ := startProgram_eq h
    refine ⟨_, delivers_outer hprogram (puts_put w _) ?_⟩
    intro p hp
    cases hp
    exact .of_none rfl
  · split at h
    · cases h
      exact ⟨_, delivers_outer hprogram (w.puts_openBrace line)
        (hstarted (w.keeps_openBrace line))⟩
    · split at h
      · cases h
        obtain ⟨parts, -, -, hputs⟩ := exists_puts_closeBrace r w line
        exact ⟨_, delivers_outer hprogram hputs (hstarted (w.keeps_closeBrace r line))⟩
      · cases h
        have hkeeps := hstarted (w.keeps_outerStatement r line)
        obtain ⟨outline, properties, heq, -⟩ := w.outerStatement_eq r line
        rw [heq] at hkeeps ⊢
        exact ⟨_, delivers_outer hprogram (puts_put { w with outline, properties } _) hkeeps⟩

theorem delivers_programLine {p : Program} (hprogram : w.program = some p) (h : w.StartsInCode)
    (hread : w.programLine r p line = .ok w') : ∃ out, Delivers w w' out := by
  cases hend : isBlockEnd line with
  | true =>
    rw [programLine, if_pos hend] at hread
    obtain ⟨held, report, hfinish, rfl⟩ := endProgram_eq hread
    refine ⟨_, puts_put { w with program := none, reports := w.reports ++ report } _, ?_, ?_⟩
    · intro q hq
      rw [put_program] at hq
      cases hq
    · rw [isHolding_put, held_of_some hprogram, ← Program.held_of_finish hfinish]
      exact (List.sublist_append_left _ _).filter _
  | false =>
    obtain ⟨p', written, hline, rfl⟩ := programLine_eq hend hread
    exact ⟨written, delivers_program hprogram (Program.passes_line (h p hprogram) hline)⟩

theorem delivers_line (h : w.StartsInCode) (hread : w.line r line = .ok w') :
    ∃ out, Delivers w w' out := by
  cases hfeed : (w.regions.feed line).feed with
  | consumed =>
    rw [line_of_consumed hfeed hread]
    exact delivers_feedRegions h line
  | live =>
    rcases line_of_live hfeed hread with ⟨p, hprogram, hread⟩ | ⟨hprogram, hread⟩
    · exact delivers_programLine hprogram h hread
    · exact delivers_outerLine hprogram hread

theorem delivers_liveInclude (h : w.StartsInCode) (directive : String) (target : Option String) :
    ∃ out, Delivers w (w.liveInclude directive target).1 out := by
  rw [liveInclude]
  split
  · rename_i hprogram
    refine ⟨_, delivers_outer hprogram (puts_put w [directive]) ?_⟩
    intro p hp
    rw [put_program, hprogram] at hp
    cases hp
  · rename_i p hprogram
    obtain ⟨hpasses, hsame⟩ := Program.passes_feed (h p hprogram) directive
    have hfed := delivers_program hprogram hpasses
    dsimp only
    split
    · exact ⟨_, hfed⟩
    · exact ⟨_, hfed⟩
    · exact hfed.write [directive]

theorem startsInCode_endInclude (h : w.StartsInCode) (target : String) :
    (w.endInclude target).StartsInCode := by
  rw [endInclude]
  split
  · exact h
  · apply startsInCode_write
    exact h

/-- **An event.**  Except for the end of an included file, it puts lines behind those that are
written, and then it may start a chunk. -/
theorem delivers_event {walk walk' : Walk} {event : Event} (h : w.StartsInCode)
    (hend : ∀ directive target, event ≠ .endInclude directive target)
    (hread : Writer.event r w walk event = .ok (w', walk')) :
    ∃ w₁ out, Delivers w w₁ out ∧ (w' = w₁ ∨ w' = { w₁ with nested := #[] :: w₁.nested }) := by
  cases event with
  | line file text =>
    obtain ⟨w₁, hline, heq⟩ := exists_ok_of_map hread
    cases heq
    obtain ⟨out, hdelivers⟩ := delivers_line h hline
    exact ⟨w', out, hdelivers, .inl rfl⟩
  | include_ file directive target =>
    obtain ⟨out, hdelivers⟩ := delivers_liveInclude h directive target
    cases includes_of_event hread with
    | consumed =>
      obtain ⟨out, hdelivers⟩ := delivers_feedRegions h directive
      exact ⟨_, out, hdelivers, .inl rfl⟩
    | kept => exact ⟨_, out, hdelivers, .inl rfl⟩
    | repeated => exact ⟨_, out, hdelivers, .inl rfl⟩
    | opened => exact ⟨_, out, hdelivers, .inr rfl⟩
  | endInclude directive target => exact absurd rfl (hend directive target)

end Writer

end ShaderMerge.Variant
