import ShaderMerge.Proofs.Include.Markers
import ShaderMerge.Variant.Writer

/-!
# What the events of a walk change in a writer

Writing changes the lines of the innermost file and the signature that is held back, and nothing
else.  An event that is no marker of a block neither starts nor ends a program block
(`keeps_event`).  One that is a marker does (`startProgram_eq`, `endProgram_eq`), unless the filter
of the regions drops it (`keeps_line_of_consumed`) or the block is already in that state.
-/

namespace ShaderMerge.Variant

open Include (Walk Event isMarker isProgramStart isBlockEnd)

/-! ## Regions -/

/-- Inside a dropped region every line is consumed. -/
theorem consumed_of_isDropping {f : Region.Filter} (h : f.isDropping = true) (line : String) :
    (f.feed line).feed = .consumed := by
  obtain ⟨region, hregion⟩ := Option.isSome_iff_exists.1 h
  simp only [Region.Filter.feed, hregion]
  rw [Region.Filter.drop.eq_def]
  split <;> rfl

/-- Outside of dropped regions a line that is no directive of a region is let through. -/
theorem feed_of_plain {f : Region.Filter} {line : String} (h : f.isDropping = false)
    (hplain : Region.Control.ofLine line = .plain) : f.feed line = ⟨f, [], .live⟩ := by
  rw [Region.Filter.isDropping, Option.isSome_eq_false_iff, Option.isNone_iff_eq_none] at h
  simp only [Region.Filter.feed, h, hplain]

/-- A line that the filter of the regions lets through leaves it as it is. -/
theorem feed_of_live {f : Region.Filter} {line : String} (h : (f.feed line).feed = .live) :
    f.feed line = ⟨f, [], .live⟩ := by
  cases hdropping : f.isDropping with
  | true =>
    rw [consumed_of_isDropping hdropping] at h
    cases h
  | false =>
    rw [Region.Filter.isDropping, Option.isSome_eq_false_iff, Option.isNone_iff_eq_none]
      at hdropping
    simp only [Region.Filter.feed, hdropping] at h ⊢
    split
    · rfl
    · rename_i heq
      rw [heq] at h
      cases h
    · rename_i condition heq
      rw [heq] at h
      dsimp only at h
      split at h <;> cases h

theorem ofLine_marker {line : String} (h : isMarker line = true) :
    Region.Control.ofLine line = .plain := by
  simp only [isMarker, isProgramStart, isBlockEnd, Bool.or_eq_true, decide_eq_true_eq] at h
  rcases h with (rfl | rfl) | (rfl | rfl) <;> decide

namespace Writer

variable {r : Request} {w w' : Writer} {line : String} {lines : List String}

/-! ## Writing -/

theorem put_of_nil (h : w.nested = []) : w.put lines = { w with main := w.main ++ lines } := by
  rw [put, h]

theorem put_of_cons {chunk : Array String} {outer : List (Array String)}
    (h : w.nested = chunk :: outer) :
    w.put lines = { w with nested := (chunk ++ lines) :: outer } := by
  rw [put, h]

@[simp]
theorem put_regions : (w.put lines).regions = w.regions := by
  rw [put]
  split <;> rfl

@[simp]
theorem put_outline : (w.put lines).outline = w.outline := by
  rw [put]
  split <;> rfl

@[simp]
theorem put_program : (w.put lines).program = w.program := by
  rw [put]
  split <;> rfl

@[simp]
theorem put_programs : (w.put lines).programs = w.programs := by
  rw [put]
  split <;> rfl

@[simp]
theorem put_chunks : (w.put lines).chunks = w.chunks := by
  rw [put]
  split <;> rfl

@[simp]
theorem put_nil (w : Writer) : w.put [] = w := by
  rw [put]
  split
  · simp
  · rename_i chunk outer hnested
    cases w
    simp only at hnested
    simp [hnested]

theorem write_of_none (h : w.program = none) : w.write lines = w.put lines := by
  rw [write, h]

theorem write_of_some {p : Program} (h : w.program = some p) :
    w.write lines = { w with program := some (p.write lines).1 }.put (p.write lines).2 := by
  rw [write, h]

@[simp]
theorem write_nil (w : Writer) : w.write [] = w := by
  cases hprogram : w.program with
  | none => rw [write_of_none hprogram, put_nil]
  | some p =>
    have hwrite : p.write [] = (p, []) := by
      cases hpending : p.pending with
      | none => simp [Program.write, hpending]
      | some pending =>
        cases p
        simp only at hpending
        simp [Program.write, hpending]
    rw [write_of_some hprogram, hwrite, put_nil, ← hprogram]

@[simp]
theorem write_regions : (w.write lines).regions = w.regions := by
  rw [write]
  split
  · exact put_regions
  · exact put_regions

@[simp]
theorem write_outline : (w.write lines).outline = w.outline := by
  rw [write]
  split
  · exact put_outline
  · exact put_outline

@[simp]
theorem write_programs : (w.write lines).programs = w.programs := by
  rw [write]
  split
  · exact put_programs
  · exact put_programs

@[simp]
theorem write_chunks : (w.write lines).chunks = w.chunks := by
  rw [write]
  split
  · exact put_chunks
  · exact put_chunks

/-! ## The program block that is being written -/

/-- As many program blocks have been started, and one is open if one was. -/
structure Keeps (w w' : Writer) : Prop where
  programs : w'.programs = w.programs
  program : w'.program.isSome = w.program.isSome

theorem Keeps.trans {w₁ : Writer} (h : Keeps w w₁) (h₁ : Keeps w₁ w') : Keeps w w' where
  programs := h₁.programs.trans h.programs
  program := h₁.program.trans h.program

theorem keeps_put (w : Writer) (lines : List String) : Keeps w (w.put lines) where
  programs := put_programs
  program := congrArg _ put_program

theorem keeps_write (w : Writer) (lines : List String) : Keeps w (w.write lines) where
  programs := write_programs
  program := by
    cases hprogram : w.program with
    | none => rw [write_of_none hprogram, put_program, hprogram]
    | some p =>
      rw [write_of_some hprogram, put_program]
      rfl

theorem keeps_feedRegions (w : Writer) (line : String) : Keeps w (w.feedRegions line).1 := by
  have hkeeps := keeps_write { w with regions := (w.regions.feed line).filter }
    (w.regions.feed line).written
  exact ⟨hkeeps.programs, hkeeps.program⟩

theorem feedRegions_regions (w : Writer) (line : String) :
    (w.feedRegions line).1.regions = (w.regions.feed line).filter := write_regions

theorem feedRegions_of_live (h : (w.regions.feed line).feed = .live) :
    w.feedRegions line = (w, .live) := by
  rw [feedRegions, feed_of_live h, write_nil]

/-! ## Outside of program blocks -/

theorem keeps_openBrace (w : Writer) (line : String) : Keeps w (w.openBrace line) := by
  simp only [openBrace]
  split
  · split
    · exact ⟨put_programs, congrArg _ put_program⟩
    · exact ⟨put_programs, congrArg _ put_program⟩
  · split
    · exact ⟨put_programs, congrArg _ put_program⟩
    · exact ⟨put_programs, congrArg _ put_program⟩

theorem keeps_putAdded (r : Request) (w : Writer) : Keeps w (w.putAdded r) :=
  ⟨put_programs, congrArg _ put_program⟩

theorem keeps_closeBrace (r : Request) (w : Writer) (line : String) :
    Keeps w (w.closeBrace r line) := by
  simp only [closeBrace]
  split
  · have hadded := keeps_putAdded r { w with outline := { w.outline with propertiesDepth := none } }
    exact ⟨put_programs.trans hadded.programs, (congrArg _ put_program).trans hadded.program⟩
  · exact ⟨put_programs, congrArg _ put_program⟩

/-- What is written for a line that is neither a brace nor a marker. -/
def outerText (r : Request) (w : Writer) (line : String) : String :=
  if w.outline.propertiesDepth = some w.outline.depth then (r.propertyLine line).2
  else r.command line

theorem outerStatement_eq (r : Request) (w : Writer) (line : String) :
    ∃ outline properties, w.outerStatement r line
        = { w with outline, properties }.put [w.outerText r line] ∧
      outline.shaderBody = w.outline.shaderBody ∧
      (outline.shaderLine = w.outline.shaderLine ∨
        w.outline.shaderLine = none ∧ outline.shaderLine = some w.main.size ∧
          isShaderLine line = true) := by
  simp only [outerStatement, outerText]
  split
  · rename_i hshader
    rw [Bool.and_eq_true, Bool.and_eq_true, Option.isNone_iff_eq_none] at hshader
    by_cases hproperties : w.outline.propertiesDepth = some w.outline.depth
    · rw [if_pos hproperties, if_pos hproperties]
      exact ⟨_, _, rfl, rfl, .inr ⟨hshader.1.1, rfl, hshader.2⟩⟩
    · rw [if_neg hproperties, if_neg hproperties]
      exact ⟨_, _, rfl, rfl, .inr ⟨hshader.1.1, rfl, hshader.2⟩⟩
  · by_cases hproperties : w.outline.propertiesDepth = some w.outline.depth
    · rw [if_pos hproperties, if_pos hproperties]
      exact ⟨_, _, rfl, rfl, .inl rfl⟩
    · rw [if_neg hproperties, if_neg hproperties]
      exact ⟨_, _, rfl, rfl, .inl rfl⟩

theorem keeps_outerStatement (r : Request) (w : Writer) (line : String) :
    Keeps w (w.outerStatement r line) := by
  obtain ⟨outline, properties, heq, -⟩ := w.outerStatement_eq r line
  rw [heq]
  exact ⟨put_programs, congrArg _ put_program⟩

theorem keeps_outerLine (hline : isProgramStart line = false) (h : w.outerLine r line = .ok w') :
    Keeps w w' := by
  rw [outerLine, if_neg (by simp [hline])] at h
  split at h
  · cases h
    exact w.keeps_openBrace line
  · split at h
    · cases h
      exact w.keeps_closeBrace r line
    · cases h
      exact w.keeps_outerStatement r line

/-- A program block that starts has the number of those in front of it, and the pass of the shader
with this number. -/
theorem startProgram_eq (h : w.startProgram r line = .ok w') :
    ∃ plan, Plan.new r.shader.name ((r.shader.passes[w.programs]?).getD .empty) r.options = .ok plan ∧
      w' = { w.put (line :: Program.prelude r.substitution plan
              ((r.shader.passes[w.programs]?).getD .empty)) with
        program := some (.new r.options w.programs
          ((r.shader.passes[w.programs]?).getD .empty) plan)
        programs := w.programs + 1 } := by
  rw [startProgram] at h
  obtain ⟨plan, hplan, hrest⟩ := exists_ok_of_bind h
  refine ⟨plan, hplan, ?_⟩
  cases hrest
  rw [put_programs]

/-! ## Inside a program block -/

theorem endProgram_eq {p : Program} {last : Option String} (h : w.endProgram p last = .ok w') :
    ∃ held report, p.finish = .ok (held, report) ∧
      w' = { w with program := none, reports := w.reports ++ report }.put
        (held ++ last.toList) := by
  rw [endProgram] at h
  obtain ⟨⟨held, report⟩, hfinish, hrest⟩ := exists_ok_of_bind h
  cases hrest
  exact ⟨held, report, hfinish, rfl⟩

theorem programLine_eq {p : Program} (hline : isBlockEnd line = false)
    (h : w.programLine r p line = .ok w') :
    ∃ p' written, p.line r.substitution line = .ok (p', written) ∧
      w' = { w with program := some p' }.put written := by
  rw [programLine, if_neg (by simp [hline])] at h
  obtain ⟨⟨p', written⟩, hread, hrest⟩ := exists_ok_of_bind h
  cases hrest
  exact ⟨p', written, hread, rfl⟩

theorem keeps_liveInclude (w : Writer) (directive : String) (target : Option String) :
    Keeps w (w.liveInclude directive target).1 := by
  rw [liveInclude]
  split
  · exact w.keeps_put _
  · rename_i p hprogram
    have hsome : w.program.isSome = true := by rw [hprogram]; rfl
    have hfed : Keeps w ({ w with program := some (p.feed directive).1 }.put (p.feed directive).2.1) :=
      ⟨put_programs, (congrArg _ put_program).trans hsome.symm⟩
    dsimp only
    split
    · exact hfed
    · exact hfed
    · exact hfed.trans (keeps_write _ _)

theorem keeps_endInclude (w : Writer) (target : String) : Keeps w (w.endInclude target) := by
  rw [endInclude]
  split
  · exact ⟨rfl, rfl⟩
  · have hkeeps := fun w₁ : Writer => keeps_write w₁
    exact ⟨(hkeeps _ _).programs, (hkeeps _ _).program⟩

/-! ## Lines -/

/-- A line that the filter of the regions consumes goes nowhere else. -/
theorem line_of_consumed (hfeed : (w.regions.feed line).feed = .consumed)
    (h : w.line r line = .ok w') : w' = (w.feedRegions line).1 := by
  have hfed : w.feedRegions line = ((w.feedRegions line).1, .consumed) := Prod.ext rfl hfeed
  rw [Writer.line, hfed] at h
  cases h
  rfl

theorem keeps_line_of_consumed (hfeed : (w.regions.feed line).feed = .consumed)
    (h : w.line r line = .ok w') : Keeps w w' := by
  rw [line_of_consumed hfeed h]
  exact w.keeps_feedRegions line

/-- A line that the filter of the regions lets through is read by the program block, or outside. -/
theorem line_of_live (hfeed : (w.regions.feed line).feed = .live) (h : w.line r line = .ok w') :
    (∃ p, w.program = some p ∧ w.programLine r p line = .ok w') ∨
      w.program = none ∧ w.outerLine r line = .ok w' := by
  rw [Writer.line, feedRegions_of_live hfeed] at h
  dsimp only at h
  split at h
  · rename_i p hprogram
    exact .inl ⟨p, hprogram, h⟩
  · rename_i hprogram
    exact .inr ⟨hprogram, h⟩

/-- A line that the filter of the regions has nothing to do with is read as it is. -/
theorem line_of_plain (hdropping : w.regions.isDropping = false)
    (hplain : Region.Control.ofLine line = .plain) (h : w.line r line = .ok w') :
    (∃ p, w.program = some p ∧ w.programLine r p line = .ok w') ∨
      w.program = none ∧ w.outerLine r line = .ok w' :=
  line_of_live (by rw [feed_of_plain hdropping hplain]) h

/-- A line that is no marker keeps the program block open, or none. -/
theorem keeps_line (hline : isMarker line = false) (h : w.line r line = .ok w') : Keeps w w' := by
  rw [isMarker, Bool.or_eq_false_iff] at hline
  cases hfeed : (w.regions.feed line).feed with
  | consumed => exact keeps_line_of_consumed hfeed h
  | live =>
    rcases line_of_live hfeed h with ⟨p, hprogram, hread⟩ | ⟨-, hread⟩
    · obtain ⟨p', written, -, rfl⟩ := programLine_eq hline.2 hread
      refine ⟨put_programs, (congrArg _ put_program).trans ?_⟩
      rw [hprogram]
      rfl
    · exact keeps_outerLine hline.1 hread

/-! ## Events -/

variable {walk walk' : Walk} {event : Event}

/-- What an include makes of a writer and of the walk. -/
inductive Includes (r : Request) (w : Writer) (walk : Walk) (directive : String)
    (target : Option String) : Writer → Walk → Prop
  /-- The filter of the regions consumes the directive. -/
  | consumed (feed : (w.regions.feed directive).feed = .consumed) :
    Includes r w walk directive target (w.feedRegions directive).1 walk
  /-- The include is not expanded where it stands. -/
  | kept (feed : (w.regions.feed directive).feed = .live)
      (expands : (w.liveInclude directive target).2 = false) :
    Includes r w walk directive target (w.liveInclude directive target).1 walk
  /-- The file is not to be expanded again. -/
  | repeated (feed : (w.regions.feed directive).feed = .live)
      (expands : (w.liveInclude directive target).2 = true)
      (descends : (walk.descend r.shader.sources).1 = false) :
    Includes r w walk directive target (w.liveInclude directive target).1
      (walk.descend r.shader.sources).2
  /-- The walk descends into the file, and a chunk starts. -/
  | opened (feed : (w.regions.feed directive).feed = .live)
      (expands : (w.liveInclude directive target).2 = true)
      (descends : (walk.descend r.shader.sources).1 = true) :
    Includes r w walk directive target
      { (w.liveInclude directive target).1 with
        nested := #[] :: (w.liveInclude directive target).1.nested }
      (walk.descend r.shader.sources).2

theorem includes_of_event {file directive : String} {target : Option String}
    (h : Writer.event r w walk (.include_ file directive target) = .ok (w', walk')) :
    Includes r w walk directive target w' walk' := by
  cases hfeed : (w.regions.feed directive).feed with
  | consumed =>
    have hfed : w.feedRegions directive = ((w.feedRegions directive).1, .consumed) :=
      Prod.ext rfl hfeed
    rw [Writer.event, hfed] at h
    cases h
    exact .consumed hfeed
  | live =>
    rw [Writer.event, feedRegions_of_live hfeed] at h
    dsimp only at h
    cases hexpands : (w.liveInclude directive target).2 with
    | false =>
      have hread : w.liveInclude directive target = ((w.liveInclude directive target).1, false) :=
        Prod.ext rfl hexpands
      rw [hread] at h
      cases h
      exact .kept hfeed hexpands
    | true =>
      have hread : w.liveInclude directive target = ((w.liveInclude directive target).1, true) :=
        Prod.ext rfl hexpands
      rw [hread] at h
      dsimp only at h
      cases hdescends : (walk.descend r.shader.sources).1 with
      | false =>
        have hdescend : walk.descend r.shader.sources
            = (false, (walk.descend r.shader.sources).2) := Prod.ext hdescends rfl
        rw [hdescend] at h
        cases h
        exact .repeated hfeed hexpands hdescends
      | true =>
        have hdescend : walk.descend r.shader.sources
            = (true, (walk.descend r.shader.sources).2) := Prod.ext hdescends rfl
        rw [hdescend] at h
        cases h
        exact .opened hfeed hexpands hdescends

theorem stepsOver_event (r : Request) :
    Include.StepsOver r.shader.sources (Writer.event r) := by
  intro w walk event w' walk' h
  cases event with
  | line file text =>
    obtain ⟨w₁, -, heq⟩ := exists_ok_of_map h
    cases heq
    exact .inl rfl
  | include_ file directive target =>
    cases includes_of_event h with
    | consumed => exact .inl rfl
    | kept => exact .inl rfl
    | repeated => exact .inr rfl
    | opened => exact .inr rfl
  | endInclude directive target =>
    cases h
    exact .inl rfl

/-- An event that is no marker neither starts nor ends a program block. -/
theorem keeps_event (hmarker : event.marker? = none)
    (h : Writer.event r w walk event = .ok (w', walk')) : Keeps w w' := by
  cases event with
  | line file text =>
    have hplain : isMarker text = false := by
      rw [Event.marker?] at hmarker
      split at hmarker
      · cases hmarker
      · rename_i hm
        exact Bool.eq_false_iff.2 hm
    obtain ⟨w₁, hread, heq⟩ := exists_ok_of_map h
    cases heq
    exact keeps_line hplain hread
  | include_ file directive target =>
    have hlive := w.keeps_liveInclude directive target
    cases includes_of_event h with
    | consumed => exact w.keeps_feedRegions directive
    | kept => exact hlive
    | repeated => exact hlive
    | opened => exact ⟨hlive.programs, hlive.program⟩
  | endInclude directive target =>
    cases h
    exact w.keeps_endInclude target

end Writer

end ShaderMerge.Variant
