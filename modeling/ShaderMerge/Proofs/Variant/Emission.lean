import ShaderMerge.Proofs.Variant.Provenance
import ShaderMerge.Proofs.Variant.Outline

/-!
# What a writer emits in an event

In an event a writer reads a live line or none, and writes lines behind those that it has written,
in the innermost chunk or in the main file.  What it writes is made of parts
(`Proofs.Variant.Provenance`), and what its program block holds back is too.  `Emits` is one such
step: the live lines that were held back and those that are read are those of the parts that are
written and of those that are held back behind it.  Steps compose (`Emits.trans`), and
`emits_event` is the step of an event other than the end of an included file.
-/

namespace ShaderMerge.Variant

open Include (Walk Event isProgramStart isBlockEnd)

namespace Writer

/-- The live lines that a writer reads in an event.  The directive of an include is one if there is
no file to expand in its place. -/
def reads (w : Writer) : Event → List LiveLine
  | .line file text => (w.live (.line file text)).map fun text => ⟨w.program, text⟩
  | .include_ _ directive target =>
    if (w.regions.feed directive).feed = .consumed then []
    else
      match w.program with
      | none => [⟨none, directive⟩]
      | some p => if target.isSome then [] else (p.live directive).map fun text => ⟨some p, text⟩
  | .endInclude _ _ => []

/-! ## What an event writes -/

/-- The parts that a writer holds back: those of its program block. -/
def Holds (r : Request) (w : Writer) (held : List Part) : Prop :=
  match w.program with
  | none => held = []
  | some p => p.Holds r held

/-- Lines are written to the innermost chunk, or to the main file. -/
def Puts (w w' : Writer) (lines : List String) : Prop :=
  match w.nested with
  | [] => w'.main.toList = w.main.toList ++ lines ∧ w'.nested = []
  | chunk :: outer => w'.main = w.main ∧
      ∃ longer, w'.nested = longer :: outer ∧ longer.toList = chunk.toList ++ lines

/-- What is held back and what is read is written in some parts or held back in others. -/
structure Emits (r : Request) (w w' : Writer) (held : List Part) (reads : List LiveLine)
    (parts held' : List Part) : Prop where
  holds : w'.Holds r held'
  puts : Puts w w' (textOf parts)
  fair : ∀ part ∈ parts, part.IsFair r
  reads : readsOf held ++ reads = readsOf parts ++ readsOf held'

variable {r : Request} {w w₁ w' : Writer} {held held' held₁ parts parts₁ : List Part}
  {lines more : List String} {line : String}

theorem puts_put (w : Writer) (lines : List String) : Puts w (w.put lines) lines := by
  rw [Puts]
  cases hnested : w.nested with
  | nil =>
    rw [put_of_nil hnested]
    exact ⟨by simp, hnested⟩
  | cons chunk outer =>
    rw [put_of_cons hnested]
    exact ⟨rfl, _, rfl, by simp⟩

theorem Puts.trans (h : Puts w w₁ lines) (h' : Puts w₁ w' more) : Puts w w' (lines ++ more) := by
  rw [Puts] at h ⊢
  cases hnested : w.nested with
  | nil =>
    rw [hnested] at h
    obtain ⟨hmain, hnone⟩ := h
    rw [Puts, hnone] at h'
    exact ⟨by rw [h'.1, hmain, List.append_assoc], h'.2⟩
  | cons chunk outer =>
    rw [hnested] at h
    obtain ⟨hmain, longer, hlonger, htext⟩ := h
    rw [Puts, hlonger] at h'
    obtain ⟨hmain', last, hlast, htext'⟩ := h'
    exact ⟨hmain'.trans hmain, last, hlast, by rw [htext', htext, List.append_assoc]⟩

/-- Whatever else is written, lines come behind those that are written. -/
theorem Puts.written_eq (h : Puts w w' lines) : w'.written = w.written ++ lines := by
  rw [Puts] at h
  cases hnested : w.nested with
  | nil =>
    rw [hnested] at h
    rw [written, written, h.1, h.2, hnested]
    simp
  | cons chunk outer =>
    rw [hnested] at h
    obtain ⟨hmain, longer, hlonger, htext⟩ := h
    rw [written, written, hmain, hlonger, hnested]
    simp [htext]

theorem Holds.of_none (h : w.Holds r held) (hprogram : w.program = none) : held = [] := by
  rwa [Holds, hprogram] at h

theorem Holds.of_some (h : w.Holds r held) {p : Program} (hprogram : w.program = some p) :
    p.Holds r held := by
  rwa [Holds, hprogram] at h

theorem Holds.text_eq (h : w.Holds r held) : textOf held = w.held := by
  cases hprogram : w.program with
  | none =>
    rw [h.of_none hprogram, Writer.held, hprogram]
    rfl
  | some p =>
    rw [(h.of_some hprogram).text, Writer.held, hprogram]
    rfl

theorem Holds.fair (h : w.Holds r held) : ∀ part ∈ held, part.IsFair r := by
  cases hprogram : w.program with
  | none =>
    rw [h.of_none hprogram]
    simp
  | some p => exact (h.of_some hprogram).fair

/-- Nothing is held back if the text of what is held back is empty. -/
theorem Holds.eq_nil (h : w.Holds r held) (hheld : w.held = []) : held = [] := by
  cases hprogram : w.program with
  | none => exact h.of_none hprogram
  | some p =>
    have hholds := h.of_some hprogram
    cases hpending : p.pending with
    | none => exact hholds.released hpending
    | some pending =>
      -- A signature that is held back has at least the line that starts it.
      obtain ⟨first, rest, q, rfl, -⟩ := hholds.started pending hpending
      have htext := h.text_eq
      rw [hheld] at htext
      cases htext

/-- Without anything held back lines are written at once. -/
theorem Holds.write_eq (h : w.Holds r []) (lines : List String) : w.write lines = w.put lines := by
  cases hprogram : w.program with
  | none => exact write_of_none hprogram
  | some p =>
    have hpending : p.pending = none := by
      cases hpending : p.pending with
      | none => rfl
      | some pending =>
        obtain ⟨first, rest, q, hheld, -⟩ := (h.of_some hprogram).started pending hpending
        cases hheld
    have hwrite : p.write lines = (p, lines) := by rw [Program.write, hpending]
    rw [write_of_some hprogram, hwrite, ← hprogram]

theorem Emits.trans {reads more : List LiveLine} (h : Emits r w w₁ held reads parts held₁)
    (h' : Emits r w₁ w' held₁ more parts₁ held') :
    Emits r w w' held (reads ++ more) (parts ++ parts₁) held' where
  holds := h'.holds
  puts := by
    rw [textOf_append]
    exact h.puts.trans h'.puts
  fair := List.forall_mem_append.2 ⟨h.fair, h'.fair⟩
  reads := by
    rw [← List.append_assoc, h.reads, List.append_assoc, h'.reads, readsOf_append,
      List.append_assoc]

/-- A step of the program block writes where the writer puts lines. -/
theorem emits_program {p' : Program} {reads : List LiveLine}
    (h : Program.Turns r (p', lines) held reads parts held') :
    Emits r w ({ w with program := some p' }.put lines) held reads parts held' where
  holds := by
    rw [Holds, put_program]
    exact h.holds
  puts := by
    rw [h.text]
    exact puts_put { w with program := some p' } lines
  fair := h.fair
  reads := h.reads

/-- Outside of program blocks parts are written at once. -/
theorem emits_outer (hprogram : w'.program = none) (hputs : Puts w w' (textOf parts))
    (hfair : ∀ part ∈ parts, part.IsFair r) : Emits r w w' [] (readsOf parts) parts [] where
  holds := by
    rw [Holds, hprogram]
  puts := hputs
  fair := hfair
  reads := by rw [readsOf_nil, List.nil_append, List.append_nil]

/-- Plain parts are written where the program block wants them. -/
theorem emits_write (h : w.Holds r held) (parts : List Part)
    (hfair : ∀ part ∈ parts, part.IsFair r) (hplain : ∀ part ∈ parts, part.isPlain = true) :
    ∃ out held', Emits r w (w.write (textOf parts)) held (readsOf parts) out held' := by
  cases hprogram : w.program with
  | none =>
    rw [h.of_none hprogram, write_of_none hprogram]
    exact ⟨parts, [], emits_outer (put_program.trans hprogram) (puts_put w _) hfair⟩
  | some p =>
    rw [write_of_some hprogram]
    obtain ⟨out, held', hturns⟩ := Program.turns_write (h.of_some hprogram) parts hfair hplain
    exact ⟨out, held', emits_program hturns⟩

/-- What the filter of the regions writes is added. -/
theorem emits_feedRegions (h : w.Holds r held) (line : String) :
    ∃ parts held', Emits r w (w.feedRegions line).1 held [] parts held' := by
  have hfed : ({ w with regions := (w.regions.feed line).filter } : Writer).Holds r held := h
  obtain ⟨parts, held', hemits⟩ := emits_write hfed [.added (w.regions.feed line).written]
    (by simpa [Part.IsFair] using IsAdded.regions w.regions line) (by simp [Part.isPlain])
  have htext : textOf [.added (w.regions.feed line).written] = (w.regions.feed line).written := by
    simp [Part.written]
  rw [htext] at hemits
  exact ⟨parts, held', hemits.holds, hemits.puts, hemits.fair, hemits.reads⟩

/-! ## Outside of program blocks -/

theorem puts_openBrace (w : Writer) (line : String) : Puts w (w.openBrace line) [line] := by
  have hput : ∀ outline : Outline, Puts w ({ w with outline }.put [line]) [line] :=
    fun outline => puts_put { w with outline } [line]
  simp only [openBrace]
  split
  · split
    · exact hput _
    · exact hput _
  · split
    · exact hput _
    · exact hput _

/-- A brace that closes is kept, behind the properties that are added. -/
theorem exists_puts_closeBrace (r : Request) (w : Writer) (line : String) :
    ∃ parts, (∀ part ∈ parts, part.IsFair r) ∧ readsOf parts = [⟨none, line⟩] ∧
      Puts w (w.closeBrace r line) (textOf parts) := by
  have hput : ∀ (w₁ : Writer) (outline : Outline) (lines : List String), Puts w w₁ lines →
      Puts w ({ w₁ with outline }.put [line]) (lines ++ [line]) :=
    fun w₁ outline lines hputs => hputs.trans (puts_put { w₁ with outline } [line])
  simp only [closeBrace]
  split
  · refine ⟨[.added (r.addedProperties.map AddedProperty.line), .kept ⟨none, line⟩], ?_, rfl, ?_⟩
    · intro part hpart
      simp only [List.mem_cons, List.not_mem_nil, or_false] at hpart
      rcases hpart with rfl | rfl
      · exact .properties
      · trivial
    · have htext : textOf [.added (r.addedProperties.map AddedProperty.line), .kept ⟨none, line⟩]
          = r.addedProperties.map AddedProperty.line ++ [line] := by simp [Part.written]
      rw [htext]
      exact hput _ _ _ (puts_put { w with
        outline := { w.outline with propertiesDepth := none }
        properties := w.properties ++ r.addedProperties.map AddedProperty.entry } _)
  · refine ⟨[.kept ⟨none, line⟩], by simp [Part.IsFair], rfl, ?_⟩
    exact puts_put { w with outline := { w.outline with depth := w.outline.depth - 1 } } [line]

theorem shaderLine_openBrace (w : Writer) (line : String) :
    (w.openBrace line).outline.shaderLine = w.outline.shaderLine := by
  simp only [openBrace]
  split
  · split
    · rfl
    · rw [put_outline]
  · split
    · rfl
    · rw [put_outline]

theorem shaderLine_closeBrace (r : Request) (w : Writer) (line : String) :
    (w.closeBrace r line).outline.shaderLine = w.outline.shaderLine := by
  simp only [closeBrace]
  split
  · rw [put_outline, putAdded, put_outline]
  · rw [put_outline]

/-- What becomes of the shader line: it is the only part that an event writes. -/
def NamesShader (w w' : Writer) (parts : List Part) : Prop :=
  w'.outline.shaderLine = w.outline.shaderLine ∨
    ∃ text written, parts = [.outer ⟨none, text⟩ written] ∧ isShaderLine text = true

theorem emits_outerStatement (hprogram : w.program = none) (hstart : isProgramStart line = false) :
    ∃ parts, Emits r w (w.outerStatement r line) [] [⟨none, line⟩] parts [] ∧
      NamesShader w (w.outerStatement r line) parts := by
  obtain ⟨outline, properties, heq, -, hline⟩ := w.outerStatement_eq r line
  rw [heq]
  have htext : w.outerText r line = r.command line ∨
      w.outerText r line = (r.propertyLine line).2 ∨
        isShaderLine line = true ∧ ∃ name, w.outerText r line = "Shader \"" ++ name ++ "\"" := by
    rw [outerText]
    split
    · exact .inr (.inl rfl)
    · exact .inl rfl
  refine ⟨[.outer ⟨none, line⟩ (w.outerText r line)], ?_, ?_⟩
  · refine @emits_outer r w _ [.outer ⟨none, line⟩ (w.outerText r line)]
      (put_program.trans hprogram) (puts_put { w with outline, properties } _) ?_
    exact List.forall_mem_singleton.2 ⟨rfl, hstart, htext⟩
  · rw [NamesShader, put_outline]
    rcases hline with hsame | ⟨-, -, hshader⟩
    · exact .inl hsame
    · exact .inr ⟨line, _, rfl, hshader⟩

theorem emits_startProgram (h : w.startProgram r line = .ok w') :
    ∃ parts, Emits r w w' [] [⟨none, line⟩] parts [] ∧ NamesShader w w' parts := by
  obtain ⟨plan, -, rfl⟩ := startProgram_eq h
  refine ⟨[.kept ⟨none, line⟩, .added (Program.prelude r.substitution plan
    ((r.shader.passes[w.programs]?).getD .empty))], ⟨?_, ?_, ?_, ?_⟩, .inl ?_⟩
  · exact Program.Holds.of_none rfl (by simp [Program.new])
  · have htext : textOf [.kept ⟨none, line⟩, .added (Program.prelude r.substitution plan
        ((r.shader.passes[w.programs]?).getD .empty))]
        = line :: Program.prelude r.substitution plan
          ((r.shader.passes[w.programs]?).getD .empty) := by simp [Part.written]
    rw [htext]
    exact puts_put w _
  · intro part hpart
    simp only [List.mem_cons, List.not_mem_nil, or_false] at hpart
    rcases hpart with rfl | rfl
    · trivial
    · exact .prelude _ _
  · rfl
  · exact congrArg Outline.shaderLine put_outline

/-- Outside of program blocks a line is kept, or written with its commands and its property as the
variant has them. -/
theorem emits_outerLine (hprogram : w.program = none) (h : w.outerLine r line = .ok w') :
    ∃ parts held', Emits r w w' [] [⟨none, line⟩] parts held' ∧ NamesShader w w' parts := by
  have hnone : ∀ {w'}, Keeps w w' → w'.program = none := by
    intro w' hkeeps
    have hsame := hkeeps.program
    rw [hprogram] at hsame
    exact Option.not_isSome_iff_eq_none.1 (by rw [hsame]; exact Bool.false_ne_true)
  rw [outerLine] at h
  split at h
  · obtain ⟨parts, hemits⟩ := emits_startProgram h
    exact ⟨parts, _, hemits⟩
  · rename_i hstart
    split at h
    · cases h
      have hemits : Emits r w (w.openBrace line) [] [⟨none, line⟩] [.kept ⟨none, line⟩] [] :=
        @emits_outer r w _ [.kept ⟨none, line⟩] (hnone (w.keeps_openBrace line))
          (w.puts_openBrace line) (by simp [Part.IsFair])
      exact ⟨_, _, hemits, .inl (w.shaderLine_openBrace line)⟩
    · split at h
      · cases h
        obtain ⟨parts, hfair, hreads, hputs⟩ := exists_puts_closeBrace r w line
        have hemits := emits_outer (hnone (w.keeps_closeBrace r line)) hputs hfair
        rw [hreads] at hemits
        exact ⟨_, _, hemits, .inl (w.shaderLine_closeBrace r line)⟩
      · cases h
        obtain ⟨parts, hemits⟩ :=
          @emits_outerStatement r w line hprogram (Bool.eq_false_iff.2 hstart)
        exact ⟨parts, _, hemits⟩

/-! ## Events -/

/-- The end of a program block releases what is held back. -/
theorem emits_endProgram {p : Program} (hprogram : w.program = some p) (h : w.Holds r held)
    {last : Option String} (hread : w.endProgram p last = .ok w') :
    Emits r w w' held (last.toList.map fun text => ⟨some p, text⟩)
      (held ++ last.toList.map fun text => .kept ⟨some p, text⟩) [] := by
  obtain ⟨lines, report, hfinish, rfl⟩ := endProgram_eq hread
  have hlines := Program.held_of_finish hfinish
  have hholds := h.of_some hprogram
  have htext : textOf (held ++ last.toList.map fun text => .kept ⟨some p, text⟩)
      = lines ++ last.toList := by
    rw [textOf_append, hholds.text, hlines]
    cases last <;> rfl
  refine ⟨?_, ?_, ?_, ?_⟩
  · rw [Holds, put_program]
  · rw [htext]
    exact puts_put { w with program := none, reports := w.reports ++ report } _
  · intro part hpart
    rcases List.mem_append.1 hpart with hpart | hpart
    · exact hholds.fair part hpart
    · obtain ⟨text, -, rfl⟩ := List.mem_map.1 hpart
      trivial
  · rw [readsOf_append, readsOf_nil, List.append_nil]
    cases last <;> rfl

theorem emits_programLine {p : Program} (hprogram : w.program = some p) (h : w.Holds r held)
    (hread : w.programLine r p line = .ok w') :
    ∃ parts held', Emits r w w' held
      ((if isBlockEnd line then [line] else p.live line).map fun text => ⟨some p, text⟩)
      parts held' := by
  cases hend : isBlockEnd line with
  | true =>
    rw [programLine, if_pos hend] at hread
    exact ⟨_, _, emits_endProgram hprogram h hread⟩
  | false =>
    obtain ⟨p', written, hline, rfl⟩ := programLine_eq hend hread
    obtain ⟨parts, held', hturns⟩ :=
      Program.turns_line (h.of_some hprogram) ⟨rfl, rfl, rfl, rfl, rfl⟩ hline
    exact ⟨parts, held', emits_program hturns⟩

theorem emits_line (h : w.Holds r held) {file : String} (hread : w.line r line = .ok w') :
    ∃ parts held', Emits r w w' held (w.reads (.line file line)) parts held' ∧
      NamesShader w w' parts := by
  rw [reads, live]
  cases hfeed : (w.regions.feed line).feed with
  | consumed =>
    obtain ⟨parts, held', hemits⟩ := emits_feedRegions h line
    rw [line_of_consumed hfeed hread]
    exact ⟨parts, held', hemits, .inl (by rw [(w.extends_feedRegions line).outline])⟩
  | live =>
    rcases line_of_live hfeed hread with ⟨p, hprogram, hread⟩ | ⟨hprogram, hread⟩
    · obtain ⟨parts, held', hemits⟩ := emits_programLine hprogram h hread
      have houtline := (extends_programLine hread).outline
      rw [hprogram]
      exact ⟨parts, held', hemits, .inl (by rw [houtline])⟩
    · have hheld := h.of_none hprogram
      subst hheld
      rw [hprogram]
      exact emits_outerLine hprogram hread

theorem emits_liveInclude (h : w.Holds r held) {file directive : String} {target : Option String}
    (hfeed : (w.regions.feed directive).feed = .live) :
    ∃ parts held', Emits r w (w.liveInclude directive target).1 held
        (w.reads (.include_ file directive target)) parts held' := by
  rw [reads, hfeed, if_neg (by decide), liveInclude]
  cases hprogram : w.program with
  | none =>
    have hheld := h.of_none hprogram
    subst hheld
    exact ⟨[.kept ⟨none, directive⟩], [], @emits_outer r w _ [.kept ⟨none, directive⟩]
      (put_program.trans hprogram) (puts_put w _) (by simp [Part.IsFair])⟩
  | some p =>
    obtain ⟨-, parts, held', hturns⟩ := Program.turns_feed (h.of_some hprogram) directive
    have hfed : Emits r w _ held [] parts held' := @emits_program r w _ _ _ _ _ _ hturns
    have hlive : (p.feed directive).2.2 = (p.filter.feed directive).feed := rfl
    dsimp only
    cases target with
    | some target =>
      refine ⟨parts, held', ?_⟩
      split
      · exact hfed
      · exact hfed
      · rename_i hnone
        cases hnone
    | none =>
      cases hpass : (p.feed directive).2.2 with
      | consumed =>
        rw [Program.live, ← hlive, hpass, if_neg (by decide)]
        exact ⟨parts, held', hfed⟩
      | live =>
        rw [Program.live, ← hlive, hpass, if_pos rfl]
        obtain ⟨more, held₁, hwrite⟩ := emits_write hfed.holds [.kept ⟨some p, directive⟩]
          (by simp [Part.IsFair]) (by simp [Part.isPlain])
        exact ⟨_, _, hfed.trans hwrite⟩

/-- **An event is accounted for.**  Except for the end of an included file, it writes parts that it
reads or that were held back; then it may start a chunk. -/
theorem emits_event {walk walk' : Walk} {event : Event} (h : w.Holds r held)
    (hend : ∀ directive target, event ≠ .endInclude directive target)
    (hread : Writer.event r w walk event = .ok (w', walk')) :
    ∃ w₁ parts held', Emits r w w₁ held (w.reads event) parts held' ∧ NamesShader w w₁ parts ∧
      (w' = w₁ ∨ w' = { w₁ with nested := #[] :: w₁.nested }) := by
  cases event with
  | line file text =>
    obtain ⟨w₁, hline, heq⟩ := exists_ok_of_map hread
    cases heq
    obtain ⟨parts, held', hemits, hnames⟩ := @emits_line r w _ held text h file hline
    exact ⟨w', parts, held', hemits, hnames, .inl rfl⟩
  | include_ file directive target =>
    have hlive : (w.regions.feed directive).feed = .live → ∃ parts held',
        Emits r w (w.liveInclude directive target).1 held
          (w.reads (.include_ file directive target)) parts held' ∧
        NamesShader w (w.liveInclude directive target).1 parts := by
      intro hfeed
      obtain ⟨parts, held', hemits⟩ := @emits_liveInclude r w held h file directive target hfeed
      exact ⟨parts, held', hemits, .inl (by rw [(w.extends_liveInclude directive target).outline])⟩
    -- Whether the walk descends decides only whether a chunk starts.
    cases includes_of_event hread with
    | consumed feed =>
      obtain ⟨parts, held', hemits⟩ := emits_feedRegions h directive
      rw [reads, if_pos feed]
      exact ⟨_, parts, held', hemits,
        .inl (by rw [(w.extends_feedRegions directive).outline]), .inl rfl⟩
    | kept feed =>
      obtain ⟨parts, held', hemits, hnames⟩ := hlive feed
      exact ⟨_, parts, held', hemits, hnames, .inl rfl⟩
    | repeated feed =>
      obtain ⟨parts, held', hemits, hnames⟩ := hlive feed
      exact ⟨_, parts, held', hemits, hnames, .inl rfl⟩
    | opened feed =>
      obtain ⟨parts, held', hemits, hnames⟩ := hlive feed
      exact ⟨_, parts, held', hemits, hnames, .inr rfl⟩
  | endInclude directive target => exact absurd rfl (hend directive target)

end Writer

end ShaderMerge.Variant
