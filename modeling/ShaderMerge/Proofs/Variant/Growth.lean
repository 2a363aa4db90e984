import ShaderMerge.Proofs.Include.Frames
import ShaderMerge.Proofs.Variant.Ledger

/-!
# How the text of a variant grows

`Writer.lines` is all that a writer has written and not yet put into a chunk, in the order of the
sources: the main file, the chunks that are being written, and what the program block holds back.
An event adds the line that it reads, if the filters let it through, and nothing else to the
structure of this text (`grows_event`).  Only the end of an included file is different: it takes the
lines of a chunk away.
-/

namespace ShaderMerge.Variant

open Include (Walk Event isMarker isProgramStart isBlockEnd)

/-! ## Lines outside of program blocks -/

theorem substitute_of_not_mem {value : String → Option String} {cs : List Char} (h : '[' ∉ cs) :
    Command.substitute value cs = cs := by
  induction cs with
  | nil => rw [Command.substitute]
  | cons c rest ih =>
    rw [List.mem_cons, not_or] at h
    have hnone : Command.bracketedName? (c :: rest) = none := by
      rw [Command.bracketedName?.eq_def]
      split
      · rename_i heq
        cases heq
        exact absurd rfl h.1
      · rfl
    rw [Command.substitute]
    split
    · rename_i heq
      rw [hnone] at heq
      cases heq
    · rw [ih h.2]

theorem outerText_of_isBlockEnd {line : String} (r : Request) (w : Writer)
    (h : isBlockEnd line = true) : w.outerText r line = line := by
  simp only [isBlockEnd, Bool.or_eq_true, decide_eq_true_eq] at h
  have hcommand : r.command line = line := by
    rw [Request.command, substitute_of_not_mem, String.ofList_toList]
    rcases h with rfl | rfl <;> decide
  have hproperty : (r.propertyLine line).2 = line := by
    have hnone : PropertyLine.ofText? line.toList = none := by
      rcases h with rfl | rfl <;> decide +kernel
    rw [Request.propertyLine, hnone]
  rw [Writer.outerText]
  split
  · exact hproperty
  · exact hcommand

namespace Writer

/-- The lines that are held back in the program block. -/
def held (w : Writer) : List String := (w.program.map Program.held).getD []

/-- The lines of the main file and of the chunks that are being written. -/
def written (w : Writer) : List String :=
  w.main.toList ++ w.nested.reverse.flatMap Array.toList

/-- All lines that are in no finished chunk. -/
def lines (w : Writer) : List String := w.written ++ w.held

/-- A chunk that starts has no lines yet. -/
theorem lines_push (w : Writer) :
    ({ w with nested := #[] :: w.nested } : Writer).lines = w.lines := by
  simp [lines, written, held]

/-- The declarations that the program block holds back have no structure. -/
def DefersPlain (w : Writer) : Prop := ∀ p, w.program = some p → p.DefersPlain

/-- The line that a writer reads in an event, if its filters let it through. -/
def live (w : Writer) : Event → List String
  | .line _ text =>
    match (w.regions.feed text).feed, w.program with
    | .consumed, _ => []
    | .live, none => [text]
    | .live, some p => if isBlockEnd text then [text] else p.live text
  | _ => []

/-- The text of a writer grows by some lines. -/
structure Grows (w w' : Writer) (new : List String) : Prop where
  adds : Adds w.lines w'.lines new
  defers : w'.DefersPlain

variable {r : Request} {w w₁ w' : Writer} {line : String} {lines new more : List String}

theorem held_of_none (h : w.program = none) : w.held = [] := by
  rw [held, h]
  rfl

theorem held_of_some {p : Program} (h : w.program = some p) : w.held = p.held := by
  rw [held, h]
  rfl

theorem Grows.trans (h : Grows w w₁ new) (h' : Grows w₁ w' more) : Grows w w' (new ++ more) :=
  ⟨h.adds.trans h'.adds, h'.defers⟩

@[simp]
theorem written_put : (w.put lines).written = w.written ++ lines := by
  cases hnested : w.nested with
  | nil => simp [put_of_nil hnested, written, hnested]
  | cons chunk outer => simp [put_of_cons hnested, written, hnested]

@[simp]
theorem held_put : (w.put lines).held = w.held := by
  rw [held, put_program, held]

/-- Without a program block lines are written behind all others. -/
theorem grows_put (hheld : w.held = []) (hdefers : w.DefersPlain)
    (h : lines.filter isStructural = new.filter isStructural) : Grows w (w.put lines) new where
  adds := by
    have hadds : Adds [] lines new := .of_filter h
    have hwhole := hadds.append_left w.written
    rw [Writer.lines, Writer.lines, written_put, held_put, hheld, List.append_nil]
    rw [List.append_nil] at hwhole ⊢
    exact hwhole
  defers p hp := hdefers p (put_program.symm.trans hp)

/-- What a step of the program block writes is put behind the lines that are written. -/
theorem grows_program {p p' : Program} (hprogram : w.program = some p)
    (h : Program.Steps p (p', lines) new) :
    Grows w ({ w with program := some p' }.put lines) new where
  adds := by
    have hheld := held_of_some hprogram
    have hheld' : ({ w with program := some p' } : Writer).held = p'.held := rfl
    rw [Writer.lines, Writer.lines, written_put, held_put, hheld, hheld', List.append_assoc]
    exact h.adds.append_left w.written
  defers q hq := by
    rw [put_program] at hq
    cases hq
    exact h.deferred

/-- Wherever lines are written, they come behind all others. -/
theorem lines_write (w : Writer) (lines : List String) :
    (w.write lines).lines = w.lines ++ lines := by
  cases hprogram : w.program with
  | none =>
    have hheld := held_of_none hprogram
    rw [write_of_none hprogram, Writer.lines, Writer.lines, written_put, held_put, hheld,
      List.append_nil, List.append_nil]
  | some p =>
    have hheld := held_of_some hprogram
    have hprogram' : (p.write lines).2 ++ (p.write lines).1.held = p.held ++ lines := by
      cases hpending : p.pending with
      | none => simp [Program.write, Program.held, hpending]
      | some pending => simp [Program.write, Program.held, hpending]
    rw [write_of_some hprogram, Writer.lines, Writer.lines, written_put, held_put, hheld,
      List.append_assoc, List.append_assoc, ← hprogram']
    rfl

theorem grows_write (hdefers : w.DefersPlain) (lines : List String) :
    Grows w (w.write lines) lines where
  adds := by
    rw [lines_write]
    exact .append w.lines lines
  defers := by
    cases hprogram : w.program with
    | none =>
      rw [write_of_none hprogram]
      exact fun p hp => hdefers p (put_program.symm.trans hp)
    | some p =>
      rw [write_of_some hprogram]
      intro q hq
      rw [put_program] at hq
      cases hq
      exact (Program.steps_write (hdefers p hprogram) lines).deferred

/-- What the filter of the regions writes adds nothing. -/
theorem grows_feedRegions (hdefers : w.DefersPlain) (line : String) :
    Grows w (w.feedRegions line).1 [] := by
  have hgrows := @grows_write { w with regions := (w.regions.feed line).filter } hdefers
    (w.regions.feed line).written
  exact ⟨hgrows.adds.of_neutral (neutral_feedRegions w.regions line), hgrows.defers⟩

/-! ## Outside of program blocks -/

theorem grows_openBrace (hheld : w.held = []) (hdefers : w.DefersPlain) (line : String) :
    Grows w (w.openBrace line) [line] := by
  have hput : ∀ outline, Grows w ({ w with outline }.put [line]) [line] := by
    intro outline
    have hgrows := @grows_put { w with outline } [line] [line] hheld hdefers rfl
    exact ⟨hgrows.adds, hgrows.defers⟩
  simp only [openBrace]
  split
  · split
    · exact ⟨(hput _).adds, (hput _).defers⟩
    · exact hput _
  · split
    · exact ⟨(hput _).adds, (hput _).defers⟩
    · exact hput _

/-- Added properties add nothing. -/
theorem grows_putAdded (hheld : w.held = []) (hdefers : w.DefersPlain) (r : Request) :
    Grows w (w.putAdded r) [] ∧ (w.putAdded r).held = [] := by
  have hput := @grows_put { w with
    properties := w.properties ++ r.addedProperties.map AddedProperty.entry }
    (r.addedProperties.map AddedProperty.line) _ hheld hdefers rfl
  exact ⟨⟨hput.adds.of_neutral (neutral_added r), hput.defers⟩, held_put.trans hheld⟩

theorem grows_closeBrace (hheld : w.held = []) (hdefers : w.DefersPlain) (r : Request)
    (line : String) : Grows w (w.closeBrace r line) [line] := by
  have hput : ∀ (w₁ : Writer) (outline : Outline), Grows w w₁ [] → w₁.held = [] →
      Grows w ({ w₁ with outline }.put [line]) [line] := by
    intro w₁ outline hgrows hheld₁
    have hline := @grows_put { w₁ with outline } [line] [line] hheld₁ hgrows.defers rfl
    exact ⟨hgrows.adds.trans hline.adds, hline.defers⟩
  simp only [closeBrace]
  split
  · obtain ⟨hgrows, hheld₁⟩ := @grows_putAdded
      { w with outline := { w.outline with propertiesDepth := none } } hheld hdefers r
    exact hput _ _ ⟨hgrows.adds, hgrows.defers⟩ hheld₁
  · exact hput w _ ⟨.refl w.lines, hdefers⟩ hheld

/-- A line that is neither a brace nor the start of a program block is written with its
structure. -/
theorem grows_outerStatement (hheld : w.held = []) (hdefers : w.DefersPlain) (r : Request)
    (hstart : isProgramStart line = false) (hbrace : isBrace line = false) :
    Grows w (w.outerStatement r line) [line] := by
  have hfilter : [w.outerText r line].filter isStructural = [line].filter isStructural := by
    cases hend : isBlockEnd line with
    | true => rw [outerText_of_isBlockEnd r w hend]
    | false =>
      have hplain : isStructural line = false := by
        rw [isStructural, isMarker, hstart, hbrace, hend]
        rfl
      simp [hplain, isStructural_outerText hplain]
  obtain ⟨outline, properties, heq, -⟩ := w.outerStatement_eq r line
  have hput := @grows_put { w with outline, properties } _ [line] hheld hdefers hfilter
  rw [heq]
  exact ⟨hput.adds, hput.defers⟩

theorem grows_startProgram (hprogram : w.program = none)
    (h : w.startProgram r line = .ok w') : Grows w w' [line] := by
  have hheld := held_of_none hprogram
  obtain ⟨plan, -, rfl⟩ := startProgram_eq h
  have hprelude := neutral_prelude r.substitution plan ((r.shader.passes[w.programs]?).getD .empty)
  have hwhole := (Adds.append w.lines [line]).append_neutral hprelude
  refine ⟨?_, ?_⟩
  · rw [Writer.lines, hheld, List.append_nil] at hwhole ⊢
    -- The block that starts holds nothing back.
    change Adds w.written ((w.put _).written ++ []) [line]
    rw [List.append_nil, written_put]
    simpa using hwhole
  · intro p hp
    cases hp
    intro line hline
    cases hline

theorem grows_outerLine (hprogram : w.program = none) (h : w.outerLine r line = .ok w') :
    Grows w w' [line] := by
  have hheld := held_of_none hprogram
  have hdefers : w.DefersPlain := fun p hp => by rw [hprogram] at hp; cases hp
  rw [outerLine] at h
  split at h
  · exact grows_startProgram hprogram h
  · rename_i hstart
    split at h
    · cases h
      exact grows_openBrace hheld hdefers line
    · rename_i hopen
      split at h
      · cases h
        exact grows_closeBrace hheld hdefers r line
      · rename_i hclose
        cases h
        have hbrace : isBrace line = false := by
          simp only [Bool.or_eq_true, decide_eq_true_eq, not_or] at hclose
          simp [isBrace, hopen, hclose.1, hclose.2]
        exact grows_outerStatement hheld hdefers r (Bool.eq_false_iff.2 hstart) hbrace

/-! ## Inside a program block -/

/-- The end of a program block releases what it holds back. -/
theorem lines_endProgram {p : Program} (hprogram : w.program = some p) {last : Option String}
    (h : w.endProgram p last = .ok w') : w'.lines = w.lines ++ last.toList := by
  obtain ⟨held, report, hfinish, rfl⟩ := endProgram_eq h
  have hlines := Program.held_of_finish hfinish
  have hheld := held_of_some hprogram
  rw [Writer.lines, Writer.lines, written_put, held_put, hheld, hlines, ← List.append_assoc]
  exact List.append_nil _

theorem grows_endProgram {p : Program} (hprogram : w.program = some p) {last : Option String}
    (h : w.endProgram p last = .ok w') : Grows w w' last.toList where
  adds := by
    rw [lines_endProgram hprogram h]
    exact .append w.lines last.toList
  defers := by
    obtain ⟨held, report, -, rfl⟩ := endProgram_eq h
    intro q hq
    rw [put_program] at hq
    cases hq

theorem grows_programLine {p : Program} (hprogram : w.program = some p) (hdefers : w.DefersPlain)
    (h : w.programLine r p line = .ok w') :
    Grows w w' (if isBlockEnd line then [line] else p.live line) := by
  cases hend : isBlockEnd line with
  | true =>
    rw [programLine, if_pos hend] at h
    exact grows_endProgram hprogram h
  | false =>
    obtain ⟨p', lines, hread, rfl⟩ := programLine_eq hend h
    exact grows_program hprogram (Program.steps_line (hdefers p hprogram) hread)

/-! ## Events -/

theorem grows_line (hdefers : w.DefersPlain) {file : String} (h : w.line r line = .ok w') :
    Grows w w' (w.live (.line file line)) := by
  cases hfeed : (w.regions.feed line).feed with
  | consumed =>
    rw [live, hfeed, line_of_consumed hfeed h]
    exact grows_feedRegions hdefers line
  | live =>
    rcases line_of_live hfeed h with ⟨p, hprogram, hread⟩ | ⟨hprogram, hread⟩
    · rw [live, hfeed, hprogram]
      exact grows_programLine hprogram hdefers hread
    · rw [live, hfeed, hprogram]
      exact grows_outerLine hprogram hread

theorem grows_liveInclude (hdefers : w.DefersPlain) {directive : String}
    (hplain : isStructural directive = false) (target : Option String) :
    Grows w (w.liveInclude directive target).1 [] := by
  have hneutral : Neutral [directive] := .of_plain fun l hl => by
    rw [List.mem_singleton.1 hl]
    exact hplain
  rw [liveInclude]
  split
  · rename_i hprogram
    have hheld := held_of_none hprogram
    have hput := @grows_put w [directive] _ hheld hdefers rfl
    exact ⟨hput.adds.of_neutral hneutral, hput.defers⟩
  · rename_i p hprogram
    have hfed := grows_program hprogram (Program.steps_feed (hdefers p hprogram) directive)
    dsimp only
    split
    · exact hfed
    · exact hfed
    · have hwritten := grows_write hfed.defers [directive]
      exact hfed.trans ⟨hwritten.adds.of_neutral hneutral, hwritten.defers⟩

/-- An event adds the line that it reads, except for the end of an included file. -/
theorem grows_event {walk walk' : Walk} {event : Event} (hdefers : w.DefersPlain)
    (hdirective : ∀ file directive target, event = .include_ file directive target →
      isStructural directive = false)
    (hend : ∀ directive target, event ≠ .endInclude directive target)
    (h : Writer.event r w walk event = .ok (w', walk')) : Grows w w' (w.live event) := by
  cases event with
  | line file text =>
    obtain ⟨w₁, hread, heq⟩ := exists_ok_of_map h
    cases heq
    exact grows_line hdefers hread
  | include_ file directive target =>
    have hread := grows_liveInclude hdefers (hdirective file directive target rfl) target
    cases includes_of_event h with
    | consumed => exact grows_feedRegions hdefers directive
    | kept => exact hread
    | repeated => exact hread
    | opened =>
      refine ⟨?_, hread.defers⟩
      rw [lines_push]
      exact hread.adds
  | endInclude directive target => exact absurd rfl (hend directive target)

end Writer

end ShaderMerge.Variant
