import ShaderMerge.Proofs.Variant.Growth

/-!
# The places in the main file that a writer remembers

A writer remembers where the shader line stands and where the first brace of the shader ends.  Both
are places in the main file, which only grows (`moves_event`).  So what the name of the variant
overwrites at the end is the shader line, if it has been read in front of the first brace.
-/

namespace ShaderMerge.Variant

open Include (Walk Event isProgramStart isBlockEnd)

theorem isStructural_of_isShaderLine {line : String} (h : Writer.isShaderLine line = true) :
    isStructural line = false := by
  rw [Writer.isShaderLine] at h
  split at h
  · rename_i heq
    exact isStructural_of_mem ((subset_of_after? heq).1 (by decide : 'h' ∈ _)) (by decide)
  · cases h

namespace Writer

variable {r : Request} {w w₁ w' : Writer} {line : String}

/-- The main file goes on, and nothing else of interest happens. -/
structure Extends (w w' : Writer) : Prop where
  main : w.main.toList <+: w'.main.toList
  outline : w'.outline = w.outline
  chunks : w'.chunks = w.chunks
  nested : w'.nested.length = w.nested.length

/-- What becomes of the remembered places. -/
inductive Remembers (w w' : Writer) : Prop
  | same (shaderLine : w'.outline.shaderLine = w.outline.shaderLine)
      (shaderBody : w'.outline.shaderBody = w.outline.shaderBody)
  | body (place : Nat) (shaderLine : w'.outline.shaderLine = w.outline.shaderLine)
      (none : w.outline.shaderBody = none) (some : w'.outline.shaderBody = some place)
      (behind : w.main.size ≤ place) (last : place = w'.main.size)
  | line (text : String) (none : w.outline.shaderLine = none)
      (some : w'.outline.shaderLine = some w.main.size)
      (shaderBody : w'.outline.shaderBody = w.outline.shaderBody)
      (plain : isStructural text = false) (lines : w'.lines = w.lines ++ [text])
      (main : w.nested = [] → w'.main.toList = w.main.toList ++ [text])

/-- The main file goes on, and perhaps a place in it is remembered. -/
structure Moves (w w' : Writer) : Prop where
  main : w.main.toList <+: w'.main.toList
  chunks : w'.chunks = w.chunks
  nested : w'.nested.length = w.nested.length
  remembers : Remembers w w'

theorem Extends.moves (h : Extends w w') : Moves w w' :=
  ⟨h.main, h.chunks, h.nested, .same (by rw [h.outline]) (by rw [h.outline])⟩

theorem Extends.trans (h : Extends w w₁) (h' : Extends w₁ w') : Extends w w' :=
  ⟨h.main.trans h'.main, h'.outline.trans h.outline, h'.chunks.trans h.chunks,
    h'.nested.trans h.nested⟩

/-! ## Writing -/

theorem main_put (w : Writer) (lines : List String) :
    w.main.toList <+: (w.put lines).main.toList := by
  cases hnested : w.nested with
  | nil => simp [put_of_nil hnested]
  | cons chunk outer => simp [put_of_cons hnested]

theorem nested_put (w : Writer) (lines : List String) :
    (w.put lines).nested.length = w.nested.length := by
  cases hnested : w.nested with
  | nil => simp [put_of_nil hnested, hnested]
  | cons chunk outer => simp [put_of_cons hnested]

theorem extends_put (w : Writer) (lines : List String) : Extends w (w.put lines) :=
  ⟨main_put w lines, put_outline, put_chunks, nested_put w lines⟩

theorem extends_write (w : Writer) (lines : List String) : Extends w (w.write lines) := by
  cases hprogram : w.program with
  | none =>
    rw [write_of_none hprogram]
    exact extends_put w lines
  | some p =>
    rw [write_of_some hprogram]
    have hput := extends_put { w with program := some (p.write lines).1 } (p.write lines).2
    exact ⟨hput.main, hput.outline, hput.chunks, hput.nested⟩

theorem extends_feedRegions (w : Writer) (line : String) : Extends w (w.feedRegions line).1 := by
  have hwrite := extends_write { w with regions := (w.regions.feed line).filter }
    (w.regions.feed line).written
  exact ⟨hwrite.main, hwrite.outline, hwrite.chunks, hwrite.nested⟩

/-! ## Outside of program blocks -/

theorem moves_openBrace (w : Writer) (line : String) : Moves w (w.openBrace line) := by
  have hput : ∀ outline, w.main.toList <+: ({ w with outline }.put [line]).main.toList :=
    fun outline => main_put { w with outline } [line]
  have hsize : ∀ outline, w.main.size ≤ ({ w with outline }.put [line]).main.size := by
    intro outline
    have hle := (hput outline).length_le
    rwa [Array.length_toList, Array.length_toList] at hle
  have hopen : ∀ outline : Outline, outline.shaderLine = w.outline.shaderLine →
      outline.shaderBody = w.outline.shaderBody →
      Moves w (if outline.depth == 1 && outline.shaderBody.isNone then
        { { w with outline }.put [line] with
          outline := { outline with shaderBody := some ({ w with outline }.put [line]).main.size } }
        else { w with outline }.put [line]) := by
    intro outline hline hbody
    split
    · rename_i hfirst
      rw [Bool.and_eq_true, Option.isNone_iff_eq_none] at hfirst
      exact ⟨hput outline, put_chunks, nested_put _ _,
        .body _ hline (hbody ▸ hfirst.2) rfl (hsize outline) rfl⟩
    · refine ⟨hput outline, put_chunks, nested_put _ _, .same ?_ ?_⟩
      · rw [put_outline, hline]
      · rw [put_outline, hbody]
  simp only [openBrace]
  split
  · exact hopen _ rfl rfl
  · exact hopen _ rfl rfl

theorem moves_closeBrace (r : Request) (w : Writer) (line : String) :
    Moves w (w.closeBrace r line) := by
  have hput : ∀ (w₁ : Writer) (outline : Outline), w.main.toList <+: w₁.main.toList →
      w₁.chunks = w.chunks → w₁.nested.length = w.nested.length →
      outline.shaderLine = w.outline.shaderLine → outline.shaderBody = w.outline.shaderBody →
      Moves w ({ w₁ with outline }.put [line]) := by
    intro w₁ outline hmain hchunks hnested hline hbody
    refine ⟨hmain.trans (main_put { w₁ with outline } [line]), ?_, ?_, .same ?_ ?_⟩
    · rw [put_chunks, hchunks]
    · rw [nested_put, hnested]
    · rw [put_outline, hline]
    · rw [put_outline, hbody]
  simp only [closeBrace]
  split
  · apply hput
    · exact main_put { w with
        outline := { w.outline with propertiesDepth := none }
        properties := w.properties ++ r.addedProperties.map AddedProperty.entry } _
    · exact put_chunks
    · exact nested_put _ _
    · rw [putAdded, put_outline]
    · rw [putAdded, put_outline]
  · exact hput w _ (List.prefix_refl _) rfl rfl rfl rfl

theorem moves_outerStatement (hprogram : w.program = none) (r : Request) (line : String) :
    Moves w (w.outerStatement r line) := by
  obtain ⟨outline, properties, heq, hbody, hline⟩ := w.outerStatement_eq r line
  rw [heq]
  refine ⟨main_put { w with outline, properties } _, put_chunks, nested_put _ _, ?_⟩
  rcases hline with hsame | ⟨hnone, hsome, hshader⟩
  · exact .same (by rw [put_outline, hsame]) (by rw [put_outline, hbody])
  · refine .line (w.outerText r line) hnone (by rw [put_outline, hsome])
      (by rw [put_outline, hbody])
      (isStructural_outerText (isStructural_of_isShaderLine hshader)) ?_ ?_
    · have hheld := held_of_none hprogram
      rw [Writer.lines, Writer.lines, written_put, held_put, hheld, List.append_nil]
      change w.written ++ [_] ++ w.held = w.written ++ [_]
      rw [hheld, List.append_nil]
    · intro hnested
      rw [@put_of_nil { w with outline, properties } _ hnested]
      simp

theorem moves_outerLine (hprogram : w.program = none) (h : w.outerLine r line = .ok w') :
    Moves w w' := by
  rw [outerLine] at h
  split at h
  · obtain ⟨plan, -, rfl⟩ := startProgram_eq h
    have hput := extends_put w (line :: Program.prelude r.substitution plan
      ((r.shader.passes[w.programs]?).getD .empty))
    exact Extends.moves ⟨hput.main, hput.outline, hput.chunks, hput.nested⟩
  · split at h
    · cases h
      exact moves_openBrace w line
    · split at h
      · cases h
        exact moves_closeBrace r w line
      · cases h
        exact moves_outerStatement hprogram r line

/-! ## Events -/

theorem extends_programLine {p : Program} (h : w.programLine r p line = .ok w') :
    Extends w w' := by
  cases hend : isBlockEnd line with
  | true =>
    rw [programLine, if_pos hend] at h
    obtain ⟨held, report, -, rfl⟩ := endProgram_eq h
    have hput := extends_put { w with program := none, reports := w.reports ++ report }
      (held ++ [line])
    exact ⟨hput.main, hput.outline, hput.chunks, hput.nested⟩
  | false =>
    obtain ⟨p', written, -, rfl⟩ := programLine_eq hend h
    have hput := extends_put { w with program := some p' } written
    exact ⟨hput.main, hput.outline, hput.chunks, hput.nested⟩

theorem moves_line (h : w.line r line = .ok w') : Moves w w' := by
  cases hfeed : (w.regions.feed line).feed with
  | consumed =>
    rw [line_of_consumed hfeed h]
    exact (w.extends_feedRegions line).moves
  | live =>
    rcases line_of_live hfeed h with ⟨p, hprogram, hread⟩ | ⟨hprogram, hread⟩
    · exact (extends_programLine hread).moves
    · exact moves_outerLine hprogram hread

theorem extends_liveInclude (w : Writer) (directive : String) (target : Option String) :
    Extends w (w.liveInclude directive target).1 := by
  rw [liveInclude]
  split
  · exact extends_put w _
  · rename_i p hprogram
    have hput := extends_put { w with program := some (p.feed directive).1 } (p.feed directive).2.1
    have hfed : Extends w
        ({ w with program := some (p.feed directive).1 }.put (p.feed directive).2.1) :=
      ⟨hput.main, hput.outline, hput.chunks, hput.nested⟩
    dsimp only
    split
    · exact hfed
    · exact hfed
    · exact hfed.trans (extends_write _ _)

/-- An event other than the end of an included file moves the writer on, and may then start a
chunk with the file that the walk descends into. -/
theorem moves_event {walk walk' : Walk} {event : Event}
    (hend : ∀ directive target, event ≠ .endInclude directive target)
    (h : Writer.event r w walk event = .ok (w', walk')) :
    ∃ w₁, Moves w w₁ ∧
      (w' = w₁ ∧ walk'.included = walk.included ∨
        w' = { w₁ with nested := #[] :: w₁.nested } ∧ walk'.included = walk.included + 1) := by
  cases event with
  | line file text =>
    obtain ⟨w₁, hread, heq⟩ := exists_ok_of_map h
    cases heq
    exact ⟨w', moves_line hread, .inl ⟨rfl, rfl⟩⟩
  | include_ file directive target =>
    have hread := (w.extends_liveInclude directive target).moves
    have hincluded := Walk.included_descend r.shader.sources walk
    cases includes_of_event h with
    | consumed => exact ⟨_, (w.extends_feedRegions directive).moves, .inl ⟨rfl, rfl⟩⟩
    | kept => exact ⟨_, hread, .inl ⟨rfl, rfl⟩⟩
    | repeated feed expands descends =>
      rw [descends] at hincluded
      exact ⟨_, hread, .inl ⟨rfl, hincluded⟩⟩
    | opened feed expands descends =>
      rw [descends] at hincluded
      exact ⟨_, hread, .inr ⟨rfl, hincluded⟩⟩
  | endInclude directive target => exact absurd rfl (hend directive target)

end Writer

end ShaderMerge.Variant
