import ShaderMerge.Proofs.Variant.Accounting
import ShaderMerge.Proofs.Variant.Carriers

/-!
# A variant is made of segments

The text of a variant, its chunks in the place of their includes, is made of segments that do what
carriers ask of them (`Proofs.Variant.Carriers`), and its program blocks, its definitions and its entry
points are those that the walk comes upon, in their order (`exists_segments_of_variant`).

`Lays` is what an event writes, except for the end of an included file, which writes nothing: it moves
the lines of a chunk to where the next line goes.  `Composed` is what a run preserves.  The main file
ends at a cut between two segments, and so do the places in it that the writer remembers, so the
properties and the name that are written at the end come between segments or instead of one line.
-/

namespace ShaderMerge.Variant

open Include (Walk Event Moment Run isProgramStart isBlockEnd)

/-! ## What an event writes -/

/-- Whether what the vertex stages of all program blocks return is code. -/
def Request.ReturnsCode (r : Request) : Prop :=
  ∀ number : Nat, Pass.ReturnsCode ((r.shader.passes[number]?).getD .empty)

namespace Writer

/-- What an event comes upon: a program block that starts, or an entry point that is written anew,
behind the definitions that are written for it. -/
def marks (w : Writer) : Event → List Mark
  | .line _ text =>
    match (w.regions.feed text).feed, w.program with
    | .consumed, _ => []
    | .live, none => if isProgramStart text then [.block w.programs] else []
    | .live, some p => p.entered text
  | _ => []

/-- The program block that is being written, if there is one, knows the carriers that have been
defined. -/
def Knows (w : Writer) (defined : List Carrier) : Prop :=
  ∀ p, w.program = some p → p.Knows defined

/-- What is written are segments that do what carriers ask of them.  The shader line is the only one
when it is read. -/
structure Lays (w w' : Writer) (defined : List Carrier) (segments : List Segment)
    (marks : List Mark) : Prop where
  puts : Puts w w' (linesOf segments)
  carries : Carries defined segments
  knows : w'.Knows (definedAfter defined segments)
  marks : marksOf segments = marks
  names : w'.outline.shaderLine = w.outline.shaderLine ∨ ∃ line, segments = [.code [line]]

variable {r : Request} {w w' : Writer} {line : String} {lines : List String}
  {defined : List Carrier} {held : List Part}

theorem Knows.of_none (h : w.program = none) (defined : List Carrier) : w.Knows defined := by
  intro p hp
  rw [h] at hp
  cases hp

theorem Knows.of_some {p : Program} (h : w.program = some p) (hknows : p.Knows defined) :
    w.Knows defined := by
  intro q hq
  rw [h] at hq
  cases hq
  exact hknows

theorem Knows.put (h : w.Knows defined) (lines : List String) : (w.put lines).Knows defined :=
  fun p hp => h p (put_program.symm.trans hp)

theorem Knows.write (h : w.Knows defined) (lines : List String) : (w.write lines).Knows defined := by
  cases hprogram : w.program with
  | none =>
    rw [write_of_none hprogram]
    exact h.put lines
  | some p =>
    rw [write_of_some hprogram]
    exact .of_some put_program ((h p hprogram).congr (p.sameCarriers_write lines))

theorem Knows.feedRegions (h : w.Knows defined) (line : String) :
    (w.feedRegions line).1.Knows defined := by
  have hfed : ({ w with regions := (w.regions.feed line).filter } : Writer).Knows defined := h
  exact hfed.write _

theorem Knows.liveInclude (h : w.Knows defined) (directive : String) (target : Option String) :
    (w.liveInclude directive target).1.Knows defined := by
  rw [Writer.liveInclude]
  split
  · exact h.put _
  · rename_i p hprogram
    have hfed : ({ w with program := some (p.feed directive).1 }.put
        (p.feed directive).2.1).Knows defined :=
      .of_some put_program ((h p hprogram).congr (p.sameCarriers_feed directive))
    dsimp only
    split
    · exact hfed
    · exact hfed
    · exact hfed.write _

/-- Code leaves what is known as it is. -/
theorem lays_code (h : w'.Knows defined) (hputs : Puts w w' lines)
    (hnames : w'.outline.shaderLine = w.outline.shaderLine ∨ ∃ line, lines = [line]) :
    Lays w w' defined [.code lines] [] where
  puts := by simpa [Segment.lines] using hputs
  carries := carries_code defined lines
  knows := h
  marks := rfl
  names := by
    rcases hnames with hsame | ⟨line, rfl⟩
    · exact .inl hsame
    · exact .inr ⟨line, rfl⟩

/-- A program block that starts has no carriers yet. -/
theorem exists_lays_startProgram (hpasses : r.ReturnsCode) (h : w.startProgram r line = .ok w')
    (defined : List Carrier) :
    ∃ segments, Lays w w' defined segments [.block w.programs] := by
  obtain ⟨plan, hplan, rfl⟩ := startProgram_eq h
  refine ⟨[.start w.programs (line :: Program.prelude r.substitution plan
    ((r.shader.passes[w.programs]?).getD .empty))], ?_, ⟨trivial, trivial⟩, ?_, rfl, .inl ?_⟩
  · rw [linesOf_cons, linesOf_nil, List.append_nil]
    exact puts_put w _
  · exact .of_some rfl (Program.knows_new _ _ _ (Plan.isTyped_new (hpasses _) hplan))
  · exact congrArg Outline.shaderLine put_outline

theorem exists_lays_outerLine (hpasses : r.ReturnsCode) (hprogram : w.program = none)
    (hread : w.outerLine r line = .ok w') (hputs : Puts w w' lines)
    (hnames : w'.outline.shaderLine = w.outline.shaderLine ∨ ∃ line, lines = [line])
    (defined : List Carrier) :
    ∃ segments, Lays w w' defined segments
      (if isProgramStart line then [Mark.block w.programs] else []) := by
  cases hstart : isProgramStart line with
  | true =>
    rw [outerLine, if_pos hstart] at hread
    exact exists_lays_startProgram hpasses hread defined
  | false =>
    have hnone : w'.program = none := by
      have hsame := (keeps_outerLine hstart hread).program
      rw [hprogram] at hsame
      exact Option.not_isSome_iff_eq_none.1 (by rw [hsame]; exact Bool.false_ne_true)
    exact ⟨_, lays_code (.of_none hnone defined) hputs hnames⟩

theorem exists_lays_programLine {p : Program} (hprogram : w.program = some p)
    (h : w.Knows defined) (hread : w.programLine r p line = .ok w') (hputs : Puts w w' lines) :
    ∃ segments, Lays w w' defined segments (p.entered line) := by
  have hnames := congrArg Outline.shaderLine (extends_programLine hread).outline
  cases hend : isBlockEnd line with
  | true =>
    -- A marker of the end of a block is no brace.
    have hnone : p.entered line = [] := by
      have hbrace : line ≠ "\x7b" := by
        rintro rfl
        exact absurd hend (by decide)
      rw [Program.entered.eq_def]
      split
      · rfl
      · rw [Program.opened.eq_def]
        split
        · rfl
        · exact if_neg fun hopens => hbrace hopens.1
    rw [programLine, if_pos hend] at hread
    obtain ⟨held, report, -, heq⟩ := endProgram_eq hread
    rw [hnone]
    refine ⟨_, lays_code (.of_none ?_ defined) hputs (.inl hnames)⟩
    rw [heq, put_program]
  | false =>
    obtain ⟨p', written, hline, rfl⟩ := programLine_eq hend hread
    obtain ⟨segments, hrenders⟩ := Program.exists_renders_line (h p hprogram) hline
    refine ⟨segments, ?_, hrenders.carries, .of_some put_program hrenders.knows, hrenders.marks,
      .inl hnames⟩
    rw [hrenders.lines]
    exact puts_put { w with program := some p' } written

theorem exists_lays_line (hpasses : r.ReturnsCode) (h : w.Knows defined)
    (hholds : w.Holds r held) {file : String} (hread : w.line r line = .ok w') :
    ∃ segments, Lays w w' defined segments (w.marks (.line file line)) := by
  obtain ⟨parts, held', hemits, hnamed⟩ := @emits_line r w w' held line hholds file hread
  have hnames : w'.outline.shaderLine = w.outline.shaderLine ∨ ∃ line, textOf parts = [line] := by
    rcases hnamed with hsame | ⟨text, written, rfl, -⟩
    · exact .inl hsame
    · exact .inr ⟨written, rfl⟩
  rw [marks]
  cases hfeed : (w.regions.feed line).feed with
  | consumed =>
    refine ⟨_, lays_code ?_ hemits.puts hnames⟩
    rw [line_of_consumed hfeed hread]
    exact h.feedRegions line
  | live =>
    rcases line_of_live hfeed hread with ⟨p, hprogram, hread⟩ | ⟨hprogram, hread⟩
    · rw [hprogram]
      exact exists_lays_programLine hprogram h hread hemits.puts
    · rw [hprogram]
      exact exists_lays_outerLine hpasses hprogram hread hemits.puts hnames defined

/-- **An event writes segments**, unless it is the end of an included file; then it may start a
chunk. -/
theorem exists_lays_event {walk walk' : Walk} {event : Event} (hpasses : r.ReturnsCode)
    (h : w.Knows defined) (hholds : w.Holds r held)
    (hend : ∀ directive target, event ≠ .endInclude directive target)
    (hread : Writer.event r w walk event = .ok (w', walk')) :
    ∃ w₁ segments, Lays w w₁ defined segments (w.marks event) ∧
      (w' = w₁ ∨ w' = { w₁ with nested := #[] :: w₁.nested }) := by
  obtain ⟨w₁, parts, held', hemits, hnamed, hpush⟩ := emits_event hholds hend hread
  cases event with
  | line file text =>
    obtain ⟨w₂, hline, heq⟩ := exists_ok_of_map hread
    cases heq
    obtain ⟨segments, hlays⟩ :=
      @exists_lays_line r w w' text defined held hpasses h hholds file hline
    exact ⟨w', segments, hlays, .inl rfl⟩
  | include_ file directive target =>
    have hknows : w'.Knows defined := by
      have hlive := h.liveInclude directive target
      cases includes_of_event hread with
      | consumed => exact h.feedRegions directive
      | kept => exact hlive
      | repeated => exact hlive
      | opened => exact hlive
    have hknows₁ : w₁.Knows defined := by
      rcases hpush with rfl | rfl
      · exact hknows
      · exact hknows
    refine ⟨w₁, _, lays_code hknows₁ hemits.puts ?_, hpush⟩
    rcases hnamed with hsame | ⟨text, written, rfl, -⟩
    · exact .inl hsame
    · exact .inr ⟨written, rfl⟩
  | endInclude directive target => exact absurd rfl (hend directive target)

theorem exists_holds_event {walk walk' : Walk} {event : Event} (h : w.Holds r held)
    (hend : ∀ directive target, event ≠ .endInclude directive target)
    (hread : Writer.event r w walk event = .ok (w', walk')) : ∃ held', w'.Holds r held' := by
  obtain ⟨w₁, parts, held', hemits, -, rfl | rfl⟩ := emits_event h hend hread
  · exact ⟨held', hemits.holds⟩
  · exact ⟨held', hemits.holds⟩

end Writer

/-! ## Cuts -/

/-- The shader line is a segment of its own, at a place of some lines. -/
def NamedIn (g : GeneratedShader) (lines : List String) (segments : List Segment)
    (place : Nat) : Prop :=
  ∃ front line back, segments = front ++ .code [line] :: back ∧ lines[place]? = some line ∧
    inline g.chunks (lines.take place) = linesOf front

/-- A place of the main file is one between two segments, and behind the shader line if that has
been read. -/
def CutAt (g : GeneratedShader) (w : Writer) (segments : List Segment) (place : Nat) : Prop :=
  ∃ front back, segments = front ++ back ∧ Carries [] front ∧ place ≤ w.main.toList.length ∧
    inline g.chunks (w.main.toList.take place) = linesOf front ∧
    ∀ line, w.outline.shaderLine = some line → NamedIn g w.main.toList front line

/-- What a run preserves: the text is made of segments, the main file ends between two of them, and
the first brace of the shader does. -/
structure Composed (r : Request) (g : GeneratedShader) (w : Writer)
    (segments : List Segment) : Prop where
  text : inline g.chunks w.written = linesOf segments
  clean : w.held.filter (includesAny g.chunks) = []
  carries : Carries [] segments
  knows : w.Knows (definedAfter [] segments)
  holds : ∃ held, w.Holds r held
  main : CutAt g w segments w.main.toList.length
  shaderBody : ∀ place, w.outline.shaderBody = some place → CutAt g w segments place

section

variable {r : Request} {g : GeneratedShader} {w w₁ w' : Writer} {segments more : List Segment}

theorem Composed.new (r : Request) (g : GeneratedShader) : Composed r g (.new r) [] where
  text := inline_nil g.chunks
  clean := rfl
  carries := trivial
  knows := .of_none rfl []
  holds := ⟨[], rfl⟩
  main := ⟨[], [], rfl, trivial, Nat.le_refl _, inline_nil g.chunks, fun line hline => by cases hline⟩
  shaderBody place hplace := by cases hplace

theorem NamedIn.mono {lines lines' : List String} {place : Nat}
    (h : NamedIn g lines segments place) (hlines : lines <+: lines') (more : List Segment) :
    NamedIn g lines' (segments ++ more) place := by
  obtain ⟨front, line, back, rfl, hline, hfront⟩ := h
  obtain ⟨rest, rfl⟩ := hlines
  obtain ⟨hlt, -⟩ := List.getElem?_eq_some_iff.1 hline
  refine ⟨front, line, back ++ more, by simp, ?_, ?_⟩
  · rw [List.getElem?_append_left hlt]
    exact hline
  · rw [List.take_append_of_le_length (Nat.le_of_lt hlt)]
    exact hfront

theorem CutAt.mono {place : Nat} (h : CutAt g w segments place)
    (hmain : w.main.toList <+: w'.main.toList)
    (hline : w'.outline.shaderLine = w.outline.shaderLine) (more : List Segment) :
    CutAt g w' (segments ++ more) place := by
  obtain ⟨front, back, rfl, hcarries, hle, hfront, hnamed⟩ := h
  refine ⟨front, back ++ more, by simp, hcarries, ?_, ?_, ?_⟩
  · exact Nat.le_trans hle hmain.length_le
  · obtain ⟨rest, hrest⟩ := hmain
    rw [← hrest, List.take_append_of_le_length hle]
    exact hfront
  · intro line hsome
    have hfirst := (hnamed line (hline ▸ hsome)).mono hmain []
    rwa [List.append_nil] at hfirst

/-- The shader line stands somewhere among the segments. -/
theorem CutAt.namedIn {place line : Nat} (h : CutAt g w segments place)
    (hline : w.outline.shaderLine = some line) : NamedIn g w.main.toList segments line := by
  obtain ⟨front, back, rfl, -, -, -, hnamed⟩ := h
  exact (hnamed line hline).mono (List.prefix_refl _) back

/-- The end of the main file is a cut if no chunk is being written. -/
theorem cutAt_of_nested (hnested : w.nested = []) (hcarries : Carries [] segments)
    (htext : inline g.chunks w.written = linesOf segments)
    (hnamed : ∀ line, w.outline.shaderLine = some line → NamedIn g w.main.toList segments line) :
    CutAt g w segments w.main.toList.length := by
  refine ⟨segments, [], (List.append_nil _).symm, hcarries, Nat.le_refl _, ?_, hnamed⟩
  rw [Writer.written, hnested] at htext
  rw [List.take_length]
  simpa using htext

/-! ## Events -/

/-- Where the shader line stands behind an event. -/
theorem namedIn_lays {defined : List Carrier} {marks : List Mark} (h : Composed r g w segments)
    (hlays : Writer.Lays w w₁ defined more marks)
    (hnested : w₁.outline.shaderLine ≠ w.outline.shaderLine → w.nested = [])
    (hplaced : w₁.outline.shaderLine = w.outline.shaderLine ∨
      w₁.outline.shaderLine = some w.main.toList.length) {line : Nat}
    (hline : w₁.outline.shaderLine = some line) :
    NamedIn g w₁.main.toList (segments ++ more) line := by
  by_cases hsame : w₁.outline.shaderLine = w.outline.shaderLine
  · exact (h.main.namedIn (hsame ▸ hline)).mono (main_puts hlays.puts) more
  · have hnone := hnested hsame
    obtain ⟨text, rfl⟩ := hlays.names.resolve_left hsame
    have hputs := hlays.puts
    have htext := h.text
    rw [hplaced.resolve_left hsame] at hline
    cases hline
    rw [Writer.Puts, hnone] at hputs
    rw [Writer.written, hnone] at htext
    have hmain : w₁.main.toList = w.main.toList ++ [text] := by
      simpa [Segment.lines] using hputs.1
    refine ⟨segments, text, [], rfl, ?_, ?_⟩
    · rw [hmain, List.getElem?_append_right (Nat.le_refl _), Nat.sub_self]
      rfl
    · rw [hmain, List.take_left]
      simpa using htext

/-- An event other than the end of an included file writes segments behind those that are written. -/
theorem composed_event {walk walk' : Walk} {event : Event} (hpasses : r.ReturnsCode)
    (h : Composed r g w segments)
    (hend : ∀ directive target, event ≠ .endInclude directive target)
    (hread : Writer.event r w walk event = .ok (w', walk')) (hplaces : KeepsPlaces g w w') :
    ∃ more, Composed r g w' (segments ++ more) ∧ marksOf more = (w.marks event) := by
  obtain ⟨held, hholds⟩ := h.holds
  obtain ⟨w₁, more, hlays, hpush⟩ := Writer.exists_lays_event hpasses h.knows hholds hend hread
  have hheld := Writer.exists_holds_event hholds hend hread
  -- A chunk that starts has no lines and no place yet, so all but its level is settled by `w₁`.
  have hlines : w'.lines = w₁.lines := by
    rcases hpush with rfl | rfl
    · rfl
    · exact w₁.lines_push
  have houtline : w'.outline = w₁.outline := by rcases hpush with rfl | rfl <;> rfl
  have hsame : w'.main = w₁.main := by rcases hpush with rfl | rfl <;> rfl
  have hprogram : w'.program = w₁.program := by rcases hpush with rfl | rfl <;> rfl
  have hwritten : w'.written = w₁.written := by
    rcases hpush with rfl | rfl
    · rfl
    · simp [Writer.written]
  obtain ⟨hplacedLine, hplacedBody⟩ := places_event hend hread
  have hshader := hplaces.shaderLine
  have hincludes := hplaces.includes
  rw [houtline] at hplacedLine hplacedBody hshader
  rw [hsame] at hplacedBody
  rw [hlines] at hincludes
  obtain ⟨hmore, hclean⟩ := clean_of_includes h.clean hlays.puts hincludes
  have htext : inline g.chunks w₁.written = linesOf (segments ++ more) := by
    rw [hlays.puts.written_eq, inline_append, h.text, hmore, linesOf_append]
  have hcarries : Carries [] (segments ++ more) := h.carries.append hlays.carries
  have hnamed : ∀ line, w₁.outline.shaderLine = some line →
      NamedIn g w₁.main.toList (segments ++ more) line :=
    fun line => namedIn_lays h hlays (fun hne => (hshader hne).2) hplacedLine
  have hgrows := main_puts hlays.puts
  have hmain : CutAt g w₁ (segments ++ more) w₁.main.toList.length := by
    have hputs := hlays.puts
    rw [Writer.Puts] at hputs
    cases hnested : w.nested with
    | nil =>
      rw [hnested] at hputs
      exact cutAt_of_nested hputs.2 hcarries htext hnamed
    | cons chunk outer =>
      -- The lines go to a chunk, so that the main file stays as it is.
      rw [hnested] at hputs
      have hkept : w₁.outline.shaderLine = w.outline.shaderLine := by
        by_contra hne
        rw [(hshader hne).2] at hnested
        cases hnested
      have hcut := h.main.mono hgrows hkept more
      rwa [← hputs.1] at hcut
  have hbody : ∀ place, w₁.outline.shaderBody = some place → CutAt g w₁ (segments ++ more) place := by
    intro place hplace
    by_cases hbefore : w₁.outline.shaderBody = w.outline.shaderBody
    · -- The shader line is not read behind the first brace.
      have hkept : w₁.outline.shaderLine = w.outline.shaderLine := by
        by_contra hne
        rw [hbefore, (hshader hne).1] at hplace
        cases hplace
      exact (h.shaderBody place (hbefore ▸ hplace)).mono hgrows hkept more
    · rw [hplacedBody.resolve_left hbefore] at hplace
      cases hplace
      exact hmain
  refine ⟨more, ⟨?_, ?_, hcarries, ?_, hheld, ?_, ?_⟩, hlays.marks⟩
  · rw [hwritten]
    exact htext
  · rw [Writer.held, hprogram]
    exact hclean
  · intro p hp
    rw [definedAfter_append]
    exact hlays.knows p (hprogram ▸ hp)
  · rw [CutAt, hsame, houtline]
    exact hmain
  · intro place hplace
    rw [CutAt, hsame, houtline]
    exact hbody place (houtline ▸ hplace)

/-- The end of an included file moves segments to where the next line goes. -/
theorem composed_endInclude (hordered : WellOrdered g.chunks) (h : Composed r g w segments)
    {target : String} (hheld : w.held = []) (hnames : NamesChunk g w target)
    (hsubset : (w.endInclude target).chunks ⊆ g.chunks) :
    Composed r g (w.endInclude target) segments := by
  obtain ⟨held, hholds⟩ := h.holds
  have hnone := hholds.eq_nil hheld
  subst hnone
  cases hnested : w.nested with
  | nil =>
    rw [Writer.endInclude, hnested]
    exact h
  | cons lines outer =>
    let opened : Writer :=
      { w with nested := outer, chunks := Sound.addChunk w.chunks (chunkOf target lines.toList) }
    let line := Directive.includeLine (chunkOf target lines.toList).name
    have hline : inline g.chunks [line] = inline g.chunks lines.toList :=
      inline_chunkOf hordered hnames hsubset hnested
    have hopened : opened.Holds r [] := hholds
    have hputs := opened.puts_put [line]
    have hmain : opened.main.toList <+: (opened.put [line]).main.toList := main_puts hputs
    have hshaderLine : (opened.put [line]).outline.shaderLine = w.outline.shaderLine :=
      congrArg Outline.shaderLine Writer.put_outline
    have htext : inline g.chunks (opened.put [line]).written = linesOf segments := by
      have hwhole := h.text
      rw [Writer.written, hnested] at hwhole
      rw [hputs.written_eq, inline_append, hline, Writer.written]
      simpa [inline_append] using hwhole
    have hcut : ∀ place, CutAt g w segments place → CutAt g (opened.put [line]) segments place := by
      intro place hplace
      have hmono := hplace.mono hmain hshaderLine []
      rwa [List.append_nil] at hmono
    rw [Sound.endInclude_eq hnested, hopened.write_eq]
    change Composed r g (opened.put [line]) segments
    refine ⟨htext, ?_, h.carries, ?_, ⟨[], ?_⟩, ?_, ?_⟩
    · rw [Writer.held_put]
      exact h.clean
    · have hknows : opened.Knows (definedAfter [] segments) := h.knows
      exact hknows.put [line]
    · rw [Writer.Holds, Writer.put_program]
      exact hopened
    · have hmainCut := hcut _ h.main
      rw [Writer.Puts] at hputs
      cases houter : opened.nested with
      | nil =>
        rw [houter] at hputs
        exact cutAt_of_nested hputs.2 h.carries htext fun place hplace => hmainCut.namedIn hplace
      | cons chunk rest =>
        -- The include goes to the chunk outside of it, so that the main file stays as it is.
        rw [houter] at hputs
        rwa [show w.main = (opened.put [line]).main from hputs.1.symm] at hmainCut
    · intro place hplace
      rw [Writer.put_outline] at hplace
      exact hcut place (h.shaderBody place hplace)

theorem composed_step {walk walk' : Walk} {event : Event} (hpasses : r.ReturnsCode)
    (hordered : WellOrdered g.chunks)
    (hstep : Writer.event r w walk event = .ok (w', walk')) (horderly : IsOrderly g w w' event)
    (hreleases : Releases w event) (hsubset : w'.chunks ⊆ g.chunks) (h : Composed r g w segments) :
    ∃ more, Composed r g w' (segments ++ more) ∧ marksOf more = (w.marks event) := by
  by_cases hend : ∀ directive target, event ≠ .endInclude directive target
  · exact composed_event hpasses h hend hstep (horderly.keepsPlaces hend)
  · simp only [not_forall, not_not] at hend
    obtain ⟨directive, target, rfl⟩ := hend
    cases hstep
    refine ⟨[], ?_, rfl⟩
    rw [List.append_nil]
    exact composed_endInclude hordered h hreleases horderly hsubset

/-! ## Runs -/

/-- What the moments of a run come upon. -/
def marksOfRun (moments : List (Moment Writer)) : List Mark :=
  moments.flatMap fun m => m.before.marks m.event

theorem composed_run {walk walk' : Walk} {moments : List (Moment Writer)}
    (hpasses : r.ReturnsCode) (hordered : WellOrdered g.chunks)
    (hrun : Run r.shader.sources (Writer.event r) w walk moments w' walk')
    (horderly : Orderly g moments) (hreleases : ∀ m ∈ moments, Releases m.before m.event)
    (hsubset : w'.chunks ⊆ g.chunks) (h : Composed r g w segments) :
    ∃ more, Composed r g w' (segments ++ more) ∧ marksOf more = marksOfRun moments := by
  induction hrun generalizing segments with
  | nil => exact ⟨[], by rwa [List.append_nil], rfl⟩
  | @cons w w₁ w' walk walk₁ walk₂ walk' event moments hnext hstep hrest ih =>
    -- The chunks that are there behind the event are still there at the end.
    have hchunks : w₁.chunks ⊆ g.chunks := List.Subset.trans (chunks_subset_run hrest) hsubset
    obtain ⟨first, hcomposed, hmarks⟩ := composed_step hpasses hordered hstep
      (horderly _ List.mem_cons_self) (hreleases _ List.mem_cons_self) hchunks h
    obtain ⟨rest, hcomposed', hmarks'⟩ := ih
      (fun m hm => horderly m (List.mem_cons_of_mem _ hm))
      (fun m hm => hreleases m (List.mem_cons_of_mem _ hm)) hsubset hcomposed
    refine ⟨first ++ rest, by rwa [← List.append_assoc], ?_⟩
    rw [marksOf_append, hmarks, hmarks', marksOfRun, marksOfRun, List.flatMap_cons]

/-! ## The end of a variant -/

/-- What is left to do behind the walk: the text of the main file is that of the segments. -/
structure Finishing (g : GeneratedShader) (lines : List String) (segments : List Segment)
    (shaderLine : Option Nat) : Prop where
  text : inline g.chunks lines = linesOf segments
  carries : Carries [] segments
  shaderLine : ∀ place, shaderLine = some place → NamedIn g lines segments place

/-- The lines that are still held back come last. -/
theorem finishing_of_composed (h : Composed r g w segments) (hnested : w.nested = [])
    (hreleased : Released w w') :
    Finishing g w'.main.toList (segments ++ [.code w.held]) w'.outline.shaderLine ∧
      ∀ place, w'.outline.shaderBody = some place →
        CutAt g w' (segments ++ [.code w.held]) place := by
  have hmain : w'.main.toList = w.written ++ w.held := hreleased.main_eq hnested
  have hline : w'.outline.shaderLine = w.outline.shaderLine := by rw [hreleased.outline]
  refine ⟨⟨?_, h.carries.append (carries_code _ _), ?_⟩, ?_⟩
  · rw [hmain, inline_append, h.text, inline_of_filter h.clean, linesOf_append]
    simp [Segment.lines]
  · intro place hplace
    exact (h.main.namedIn (hline ▸ hplace)).mono hreleased.main _
  · intro place hplace
    rw [hreleased.outline] at hplace
    exact (h.shaderBody place hplace).mono hreleased.main hline _

/-- The properties that the variant adds come between two segments, behind the first brace. -/
theorem exists_finishing_addProperties (h : Finishing g w.main.toList segments w.outline.shaderLine)
    (hcut : ∀ place, w.outline.shaderBody = some place → CutAt g w segments place)
    (hbefore : ∀ place body, w.outline.shaderLine = some place →
      w.outline.shaderBody = some body → place < body) :
    ∃ segments', Finishing g (w.addProperties r).main.toList segments' w.outline.shaderLine ∧
      marksOf segments' = marksOf segments := by
  simp only [Writer.addProperties]
  split
  · exact ⟨segments, h, rfl⟩
  · rename_i body hbody
    split
    · exact ⟨segments, h, rfl⟩
    · obtain ⟨front, back, rfl, hcarries, hle, hfront, hnamed⟩ := hcut body hbody
      let block := ["Properties", "\x7b"] ++ r.addedProperties.map AddedProperty.line ++ ["\x7d"]
      refine ⟨front ++ .code block :: back, ⟨?_, ?_, ?_⟩, ?_⟩
      · have htext := h.text
        rw [linesOf_append] at htext
        rw [linesOf_append, linesOf_cons]
        exact inline_insert (inline_added g.chunks r) hfront htext
      · exact hcarries.append ⟨trivial, h.carries.of_append⟩
      · intro place hplace
        have hlt := hbefore place body hplace hbody
        -- The shader line stands in front of the properties.
        obtain ⟨first, line, rest, rfl, hline, hfirst⟩ := hnamed place hplace
        have hshorter : place < (w.main.toList.take body).length := by
          rw [List.length_take]
          omega
        refine ⟨first, line, rest ++ .code block :: back, by simp, ?_, ?_⟩
        · rw [List.append_assoc, List.getElem?_append_left hshorter, List.getElem?_take_of_lt hlt]
          exact hline
        · rw [List.append_assoc, List.take_append_of_le_length (Nat.le_of_lt hshorter),
            List.take_take, Nat.min_eq_left (Nat.le_of_lt hlt)]
          exact hfirst
      · rw [marksOf_append, marksOf_append]
        rfl

/-- The name of the variant takes the place of that of the shader. -/
theorem exists_segments_named {lines : List String} {place? : Option Nat}
    (h : Finishing g lines segments place?)
    (hplain : ∀ place, place? = some place →
      ∃ line, lines[place]? = some line ∧ includesAny g.chunks line = false) :
    ∃ segments', linesOf segments' = inline g.chunks (named g.name lines place?) ∧
      Carries [] segments' ∧ marksOf segments' = marksOf segments := by
  cases hplace : place? with
  | none => exact ⟨segments, h.text.symm, h.carries, rfl⟩
  | some place =>
    obtain ⟨front, text, back, rfl, hline, hfront⟩ := h.shaderLine place hplace
    obtain ⟨line, hsame, hincludes⟩ := hplain place hplace
    rw [hline] at hsame
    cases hsame
    have hwhole : inline g.chunks lines = linesOf front ++ text :: linesOf back := by
      rw [h.text, linesOf_append, linesOf_cons]
      rfl
    refine ⟨front ++ .code ["Shader \"" ++ g.name ++ "\""] :: back, ?_, h.carries.code _, ?_⟩
    · rw [named, inline_set _ hline hincludes (not_includesAny_shaderLine g.chunks g.name) hfront
        hwhole, linesOf_append, linesOf_cons]
      rfl
    · rw [marksOf_append, marksOf_append]
      rfl

end

/-- **A variant is made of segments** that do what carriers ask of them, and its program blocks,
definitions and entry points are those that the walk comes upon, as long as no included file ends
while the signature of an entry point is held back. -/
theorem exists_segments_of_variant {project : Project} {path : String} {shader : Shader}
    {o : Options} {g : GeneratedShader} (hread : Shader.read? project path = .ok shader)
    (hvariant : shader.variant o = .ok g) (horderly : Orderly g (Writer.moments shader o))
    (hreleases : ∀ m ∈ Writer.moments shader o, Releases m.before m.event) :
    ∃ segments, linesOf segments = g.inlined ∧ Carries [] segments ∧
      marksOf segments = marksOfRun (Writer.moments shader o) := by
  obtain ⟨substitution, w, walk, -, hrun, -, hfinish, hchunks, hnested, hsound⟩ :=
    exists_run_of_orderly hvariant horderly
  let r : Request := ⟨shader, o, substitution⟩
  have hpasses : r.ReturnsCode := returnsCode_of_read hread
  have hordered : WellOrdered g.chunks := hchunks ▸ hsound.ordered
  have hsubset : w.chunks ⊆ g.chunks := by
    rw [hchunks]
    exact List.Subset.refl _
  obtain ⟨segments, hcomposed, hmarks⟩ :=
    @composed_run r g _ w _ _ _ _ hpasses hordered hrun horderly hreleases hsubset (.new r g)
  obtain ⟨w', hreleased, -, hmain⟩ := finish_eq hfinish
  obtain ⟨hfinishing, hcut⟩ := finishing_of_composed hcomposed hnested hreleased
  have hplaces : ∀ place, w'.outline.shaderLine = some place →
      (∃ line, w'.main.toList[place]? = some line ∧ includesAny g.chunks line = false) ∧
        ∀ body, w'.outline.shaderBody = some body → place < body := by
    intro place hplace
    rw [hreleased.outline] at hplace ⊢
    obtain ⟨⟨line, hline, -, hincludes⟩, hbody⟩ := hsound.shaderLine place hplace
    exact ⟨⟨line, Sound.getElem?_of_main hreleased.main hline, hincludes⟩, hbody⟩
  obtain ⟨added, hadded, haddedMarks⟩ := exists_finishing_addProperties hfinishing hcut
    fun place body hplace => (hplaces place hplace).2 body
  obtain ⟨all, htext, hcarries, hallMarks⟩ := exists_segments_named hadded (by
    intro place hplace
    obtain ⟨⟨line, hline, hincludes⟩, hbody⟩ := hplaces place hplace
    exact ⟨line, getElem?_addProperties hline hbody r, hincludes⟩)
  refine ⟨all, ?_, hcarries, ?_⟩
  · rw [htext, GeneratedShader.inlined, hmain]
  · rw [hallMarks, haddedMarks, marksOf_append, List.nil_append, hmarks]
    exact List.append_nil _

end ShaderMerge.Variant
