import ShaderMerge.Proofs.Variant.Accounting

/-!
# The script of a variant

The text of a variant, its chunks in the place of their includes, is made of strokes: what has been
written at each moment of the walk, in the order of the moments (`exists_script_of_variant`).  Inside
of program blocks a stroke is what the writer writes at its moment.  Only outside of them something
else may come to stand: the name of the variant in the place of the shader line, and, as a stroke
without a moment, the properties that the variant adds.  What is held back when the walk ends comes
behind the script.

With it a fact about the text of a program block is one about the moments of the block.
-/

namespace ShaderMerge.Variant

open Include (Walk Event Moment Run isProgramStart isBlockEnd)

/-! ## Strokes -/

/-- What is written at a moment.  The end of an included file writes nothing: it moves the lines of a
chunk to where the next line goes. -/
def wrote (m : Moment Writer) : List String :=
  match m.event with
  | .endInclude _ _ => []
  | _ => m.after.written.drop m.before.written.length

/-- Whether a moment is outside of program blocks. -/
def IsOuter (m : Moment Writer) : Prop := m.before.program = none ∧ m.after.program = none

/-- A piece of the text of a variant. -/
structure Stroke where
  /-- The moment that it comes from, unless it is added behind the walk. -/
  moment : Option (Moment Writer)
  /-- The lines. -/
  lines : List String

/-- Whether a stroke is what is written at its moment.  Outside of program blocks it may be something
else, and if it has no moment, it has no directive. -/
def Stroke.IsFaithful (stroke : Stroke) : Prop :=
  match stroke.moment with
  | some m => stroke.lines = wrote m ∨ IsOuter m
  | none => ∀ line ∈ stroke.lines, Directive.isMarked line = false

/-- The lines of some strokes. -/
def scriptText (script : List Stroke) : List String := script.flatMap Stroke.lines

/-- The moments of some strokes. -/
def momentsOf (script : List Stroke) : List (Moment Writer) := script.filterMap Stroke.moment

section

variable {first second : List Stroke} {stroke : Stroke}

@[simp]
theorem scriptText_nil : scriptText [] = [] := rfl

@[simp]
theorem scriptText_append : scriptText (first ++ second) = scriptText first ++ scriptText second :=
  List.flatMap_append

@[simp]
theorem scriptText_cons : scriptText (stroke :: second) = stroke.lines ++ scriptText second := rfl

@[simp]
theorem momentsOf_append : momentsOf (first ++ second) = momentsOf first ++ momentsOf second :=
  List.filterMap_append

theorem momentsOf_cons : momentsOf (stroke :: second)
    = stroke.moment.toList ++ momentsOf second := by
  cases h : stroke.moment with
  | none => rw [momentsOf, List.filterMap_cons_none h]; rfl
  | some m => rw [momentsOf, List.filterMap_cons_some h]; rfl

end

/-- A script of some moments, which together make a variant. -/
structure IsScript (g : GeneratedShader) (moments : List (Moment Writer))
    (script : List Stroke) : Prop where
  moments : momentsOf script = moments
  text : ∃ held, g.inlined = scriptText script ++ held
  faithful : ∀ stroke ∈ script, stroke.IsFaithful

/-! ## The stroke of an event -/

section

variable {r : Request} {w w₁ w' : Writer} {walk walk' : Walk} {event : Event} {lines : List String}

theorem line_ne_endInclude (file text : String) :
    ∀ directive target, Event.line file text ≠ .endInclude directive target := by
  intro directive target h
  cases h

theorem include_ne_endInclude (file text : String) (found : Option String) :
    ∀ directive target, Event.include_ file text found ≠ .endInclude directive target := by
  intro directive target h
  cases h

/-- The lines that an event puts behind the others are what is written at its moment. -/
theorem wrote_of_puts (hend : ∀ directive target, event ≠ .endInclude directive target)
    (hputs : Writer.Puts w w₁ lines) (hwritten : w'.written = w₁.written) :
    wrote ⟨w, event, walk, w'⟩ = lines := by
  have hdrop : w'.written.drop w.written.length = lines := by
    rw [hwritten, hputs.written_eq, List.drop_left]
  cases event with
  | line => exact hdrop
  | include_ => exact hdrop
  | endInclude directive target => exact absurd rfl (hend directive target)

/-- The shader line is read outside of program blocks. -/
theorem isOuter_of_shaderLine (hend : ∀ directive target, event ≠ .endInclude directive target)
    (hread : Writer.event r w walk event = .ok (w', walk'))
    (hchanged : w'.outline.shaderLine ≠ w.outline.shaderLine) : IsOuter ⟨w, event, walk, w'⟩ := by
  have hsame : w'.outline = w.outline → IsOuter ⟨w, event, walk, w'⟩ :=
    fun h => absurd (congrArg Outline.shaderLine h) hchanged
  cases event with
  | line file text =>
    obtain ⟨w₁, hline, heq⟩ := exists_ok_of_map hread
    cases heq
    cases hfeed : (w.regions.feed text).feed with
    | consumed =>
      rw [Writer.line_of_consumed hfeed hline] at hsame ⊢
      exact hsame (w.extends_feedRegions text).outline
    | live =>
      rcases Writer.line_of_live hfeed hline with ⟨p, -, hline⟩ | ⟨hprogram, hline⟩
      · exact hsame (Writer.extends_programLine hline).outline
      · cases hstart : isProgramStart text with
        | true =>
          rw [Writer.outerLine, if_pos hstart] at hline
          obtain ⟨plan, -, rfl⟩ := Writer.startProgram_eq hline
          exact hsame Writer.put_outline
        | false =>
          have hprogram' := (Writer.keeps_outerLine hstart hline).program
          rw [hprogram] at hprogram'
          exact ⟨hprogram, Option.not_isSome_iff_eq_none.1 (hprogram' ▸ Bool.false_ne_true)⟩
  | include_ file directive target =>
    cases Writer.includes_of_event hread with
    | consumed => exact hsame (w.extends_feedRegions directive).outline
    | kept => exact hsame (w.extends_liveInclude directive target).outline
    | repeated => exact hsame (w.extends_liveInclude directive target).outline
    | opened => exact hsame (w.extends_liveInclude directive target).outline
  | endInclude directive target => exact absurd rfl (hend directive target)

end

/-! ## Cuts -/

/-- The shader line is a stroke of its own, at a place of some lines. -/
def NamedBy (g : GeneratedShader) (lines : List String) (script : List Stroke)
    (place : Nat) : Prop :=
  ∃ front m line back, script = front ++ ⟨some m, [line]⟩ :: back ∧ IsOuter m ∧
    lines[place]? = some line ∧ inline g.chunks (lines.take place) = scriptText front

/-- A place of the main file is one between two strokes, and behind the shader line if that has been
read. -/
def CutBy (g : GeneratedShader) (w : Writer) (script : List Stroke) (place : Nat) : Prop :=
  ∃ front back, script = front ++ back ∧ place ≤ w.main.toList.length ∧
    inline g.chunks (w.main.toList.take place) = scriptText front ∧
    ∀ line, w.outline.shaderLine = some line → NamedBy g w.main.toList front line

/-- What a run preserves: the text is made of strokes, the main file ends between two of them, and
the first brace of the shader does. -/
structure Scripted (r : Request) (g : GeneratedShader) (w : Writer) (script : List Stroke) :
    Prop where
  text : inline g.chunks w.written = scriptText script
  clean : w.held.filter (includesAny g.chunks) = []
  faithful : ∀ stroke ∈ script, stroke.IsFaithful
  holds : ∃ held, w.Holds r held
  main : CutBy g w script w.main.toList.length
  shaderBody : ∀ place, w.outline.shaderBody = some place → CutBy g w script place

section

variable {r : Request} {g : GeneratedShader} {w w₁ w' : Writer} {walk walk' : Walk} {event : Event}
  {lines : List String} {script more : List Stroke} {stroke : Stroke}

theorem Scripted.new (r : Request) (g : GeneratedShader) : Scripted r g (.new r) [] where
  text := inline_nil g.chunks
  clean := rfl
  faithful := by simp
  holds := ⟨[], rfl⟩
  main := ⟨[], [], rfl, Nat.le_refl _, inline_nil g.chunks, fun line hline => by cases hline⟩
  shaderBody place hplace := by cases hplace

theorem NamedBy.mono {lines' : List String} {place : Nat} (h : NamedBy g lines script place)
    (hlines : lines <+: lines') (more : List Stroke) : NamedBy g lines' (script ++ more) place := by
  obtain ⟨front, m, line, back, rfl, houter, hline, hfront⟩ := h
  obtain ⟨rest, rfl⟩ := hlines
  obtain ⟨hlt, -⟩ := List.getElem?_eq_some_iff.1 hline
  refine ⟨front, m, line, back ++ more, by simp, houter, ?_, ?_⟩
  · rw [List.getElem?_append_left hlt]
    exact hline
  · rw [List.take_append_of_le_length (Nat.le_of_lt hlt)]
    exact hfront

theorem CutBy.mono {place : Nat} (h : CutBy g w script place)
    (hmain : w.main.toList <+: w'.main.toList)
    (hline : w'.outline.shaderLine = w.outline.shaderLine) (more : List Stroke) :
    CutBy g w' (script ++ more) place := by
  obtain ⟨front, back, rfl, hle, hfront, hnamed⟩ := h
  refine ⟨front, back ++ more, by simp, Nat.le_trans hle hmain.length_le, ?_, ?_⟩
  · obtain ⟨rest, hrest⟩ := hmain
    rw [← hrest, List.take_append_of_le_length hle]
    exact hfront
  · intro line hsome
    have hfirst := (hnamed line (hline ▸ hsome)).mono hmain []
    rwa [List.append_nil] at hfirst

/-- The shader line stands somewhere in the script. -/
theorem CutBy.namedBy {place line : Nat} (h : CutBy g w script place)
    (hline : w.outline.shaderLine = some line) : NamedBy g w.main.toList script line := by
  obtain ⟨front, back, rfl, -, -, hnamed⟩ := h
  exact (hnamed line hline).mono (List.prefix_refl _) back

/-- The end of the main file is a cut if no chunk is being written. -/
theorem cutBy_of_nested (hnested : w.nested = [])
    (htext : inline g.chunks w.written = scriptText script)
    (hnamed : ∀ line, w.outline.shaderLine = some line → NamedBy g w.main.toList script line) :
    CutBy g w script w.main.toList.length := by
  refine ⟨script, [], (List.append_nil _).symm, Nat.le_refl _, ?_, hnamed⟩
  rw [Writer.written, hnested] at htext
  rw [List.take_length]
  simpa using htext

/-! ## Events -/

/-- Where the shader line stands behind an event. -/
theorem namedBy_puts {m : Moment Writer} (h : Scripted r g w script)
    (hputs : Writer.Puts w w₁ lines)
    (hshader : w₁.outline.shaderLine ≠ w.outline.shaderLine →
      w.nested = [] ∧ IsOuter m ∧ ∃ line, lines = [line])
    (hplaced : w₁.outline.shaderLine = w.outline.shaderLine ∨
      w₁.outline.shaderLine = some w.main.toList.length) {line : Nat}
    (hline : w₁.outline.shaderLine = some line) :
    NamedBy g w₁.main.toList (script ++ [⟨some m, lines⟩]) line := by
  by_cases hsame : w₁.outline.shaderLine = w.outline.shaderLine
  · exact (h.main.namedBy (hsame ▸ hline)).mono (main_puts hputs) [⟨some m, lines⟩]
  · obtain ⟨hnone, houter, text, rfl⟩ := hshader hsame
    have htext := h.text
    rw [hplaced.resolve_left hsame] at hline
    cases hline
    rw [Writer.Puts, hnone] at hputs
    rw [Writer.written, hnone] at htext
    refine ⟨script, m, text, [], rfl, houter, ?_, ?_⟩
    · rw [hputs.1, List.getElem?_append_right (Nat.le_refl _), Nat.sub_self]
      rfl
    · rw [hputs.1, List.take_left]
      simpa using htext

/-- An event other than the end of an included file adds the stroke of its moment. -/
theorem scripted_event (h : Scripted r g w script)
    (hend : ∀ directive target, event ≠ .endInclude directive target)
    (hread : Writer.event r w walk event = .ok (w', walk')) (hplaces : KeepsPlaces g w w') :
    ∃ lines, Scripted r g w' (script ++ [⟨some ⟨w, event, walk, w'⟩, lines⟩]) := by
  obtain ⟨held, hholds⟩ := h.holds
  obtain ⟨w₁, parts, held', hemits, hnames, hpush⟩ := Writer.emits_event hholds hend hread
  have hputs := hemits.puts
  -- A chunk that starts has no lines and no place yet, so all but its level is settled by `w₁`.
  have hlines : w'.lines = w₁.lines := by
    rcases hpush with rfl | rfl
    · rfl
    · exact w₁.lines_push
  have houtline : w'.outline = w₁.outline := by rcases hpush with rfl | rfl <;> rfl
  have hsame : w'.main = w₁.main := by rcases hpush with rfl | rfl <;> rfl
  have hprogram : w'.program = w₁.program := by rcases hpush with rfl | rfl <;> rfl
  have hwritten : w'.written = w₁.written := by
    rcases hpush with rfl | rfl
    · rfl
    · simp [Writer.written]
  obtain ⟨hplacedLine, hplacedBody⟩ := places_event hend hread
  have hshader : w₁.outline.shaderLine ≠ w.outline.shaderLine →
      w.nested = [] ∧ IsOuter ⟨w, event, walk, w'⟩ ∧ ∃ line, textOf parts = [line] := by
    intro hne
    have hchanged : w'.outline.shaderLine ≠ w.outline.shaderLine := by rwa [houtline]
    obtain ⟨text, written, rfl, -⟩ := hnames.resolve_left hne
    exact ⟨(hplaces.shaderLine hchanged).2, isOuter_of_shaderLine hend hread hchanged, written, rfl⟩
  have hincludes := hplaces.includes
  rw [hlines] at hincludes
  rw [houtline] at hplacedLine hplacedBody
  rw [hsame] at hplacedBody
  obtain ⟨hmore, hclean⟩ := clean_of_includes h.clean hputs hincludes
  let stroke : Stroke := ⟨some ⟨w, event, walk, w'⟩, textOf parts⟩
  have htext : inline g.chunks w₁.written = scriptText (script ++ [stroke]) := by
    rw [hputs.written_eq, inline_append, h.text, hmore]
    simp [stroke]
  have hnamed : ∀ line, w₁.outline.shaderLine = some line →
      NamedBy g w₁.main.toList (script ++ [stroke]) line :=
    fun line => namedBy_puts h hputs hshader hplacedLine
  have hgrows := main_puts hputs
  have hmain : CutBy g w₁ (script ++ [stroke]) w₁.main.toList.length := by
    have hplaced := hputs
    rw [Writer.Puts] at hplaced
    cases hnested : w.nested with
    | nil =>
      rw [hnested] at hplaced
      exact cutBy_of_nested hplaced.2 htext hnamed
    | cons chunk outer =>
      -- The lines go to a chunk, so that the main file stays as it is.
      rw [hnested] at hplaced
      have hkept : w₁.outline.shaderLine = w.outline.shaderLine := by
        by_contra hne
        rw [(hshader hne).1] at hnested
        cases hnested
      have hcut := h.main.mono hgrows hkept [stroke]
      rwa [← hplaced.1] at hcut
  have hbody : ∀ place, w₁.outline.shaderBody = some place →
      CutBy g w₁ (script ++ [stroke]) place := by
    intro place hplace
    by_cases hbefore : w₁.outline.shaderBody = w.outline.shaderBody
    · -- The shader line is not read behind the first brace.
      have hkept : w₁.outline.shaderLine = w.outline.shaderLine := by
        by_contra hne
        rw [hbefore, (hplaces.shaderLine (by rwa [houtline])).1] at hplace
        cases hplace
      exact (h.shaderBody place (hbefore ▸ hplace)).mono hgrows hkept [stroke]
    · rw [hplacedBody.resolve_left hbefore] at hplace
      cases hplace
      exact hmain
  have hheld : ∃ held, w'.Holds r held := by
    rcases hpush with rfl | rfl
    · exact ⟨held', hemits.holds⟩
    · exact ⟨held', hemits.holds⟩
  refine ⟨textOf parts, ⟨?_, ?_, ?_, hheld, ?_, ?_⟩⟩
  · rw [hwritten]
    exact htext
  · rw [Writer.held, hprogram]
    exact hclean
  · exact List.forall_mem_append.2 ⟨h.faithful, List.forall_mem_singleton.2
      (.inl (wrote_of_puts hend hputs hwritten).symm)⟩
  · rw [CutBy, hsame, houtline]
    exact hmain
  · intro place hplace
    rw [CutBy, hsame, houtline]
    exact hbody place (houtline ▸ hplace)

/-- The end of an included file moves strokes to where the next line goes, and writes none. -/
theorem scripted_endInclude (hordered : WellOrdered g.chunks) (h : Scripted r g w script)
    {directive target : String} (hheld : w.held = []) (hnames : NamesChunk g w target)
    (hsubset : (w.endInclude target).chunks ⊆ g.chunks) :
    Scripted r g (w.endInclude target)
      (script ++ [⟨some ⟨w, .endInclude directive target, walk, w.endInclude target⟩, []⟩]) := by
  obtain ⟨held, hholds⟩ := h.holds
  have hnone := hholds.eq_nil hheld
  subst hnone
  let stroke : Stroke := ⟨some ⟨w, .endInclude directive target, walk, w.endInclude target⟩, []⟩
  have hfaithful : ∀ s ∈ script ++ [stroke], s.IsFaithful :=
    List.forall_mem_append.2 ⟨h.faithful, List.forall_mem_singleton.2 (.inl rfl)⟩
  have htextOf : scriptText (script ++ [stroke]) = scriptText script := by simp [stroke]
  cases hnested : w.nested with
  | nil =>
    have hsame : w.endInclude target = w := by rw [Writer.endInclude, hnested]
    have hcut : ∀ place, CutBy g w script place → CutBy g w (script ++ [stroke]) place :=
      fun place hplace => hplace.mono (List.prefix_refl _) rfl [stroke]
    change Scripted r g (w.endInclude target) (script ++ [stroke])
    rw [hsame]
    exact ⟨htextOf ▸ h.text, h.clean, hfaithful, h.holds, hcut _ h.main,
      fun place hplace => hcut place (h.shaderBody place hplace)⟩
  | cons lines outer =>
    let opened : Writer :=
      { w with nested := outer, chunks := Sound.addChunk w.chunks (chunkOf target lines.toList) }
    let line := Directive.includeLine (chunkOf target lines.toList).name
    have hline : inline g.chunks [line] = inline g.chunks lines.toList :=
      inline_chunkOf hordered hnames hsubset hnested
    have hopened : opened.Holds r [] := hholds
    have hputs := opened.puts_put [line]
    have hmain : opened.main.toList <+: (opened.put [line]).main.toList := main_puts hputs
    have hshaderLine : (opened.put [line]).outline.shaderLine = w.outline.shaderLine :=
      congrArg Outline.shaderLine Writer.put_outline
    have htext : inline g.chunks (opened.put [line]).written = scriptText (script ++ [stroke]) := by
      have hwhole := h.text
      rw [Writer.written, hnested] at hwhole
      rw [hputs.written_eq, inline_append, hline, Writer.written, htextOf]
      simpa [inline_append] using hwhole
    have hcut : ∀ place, CutBy g w script place →
        CutBy g (opened.put [line]) (script ++ [stroke]) place :=
      fun place hplace => hplace.mono hmain hshaderLine [stroke]
    change Scripted r g (w.endInclude target) (script ++ [stroke])
    rw [Sound.endInclude_eq hnested, hopened.write_eq]
    change Scripted r g (opened.put [line]) (script ++ [stroke])
    refine ⟨htext, ?_, hfaithful, ⟨[], ?_⟩, ?_, ?_⟩
    · rw [Writer.held_put]
      exact h.clean
    · rw [Writer.Holds, Writer.put_program]
      exact hopened
    · have hmainCut := hcut _ h.main
      rw [Writer.Puts] at hputs
      cases houter : opened.nested with
      | nil =>
        rw [houter] at hputs
        exact cutBy_of_nested hputs.2 htext fun place hplace => hmainCut.namedBy hplace
      | cons chunk rest =>
        -- The include goes to the chunk outside of it, so that the main file stays as it is.
        rw [houter] at hputs
        rwa [show w.main = (opened.put [line]).main from hputs.1.symm] at hmainCut
    · intro place hplace
      rw [Writer.put_outline] at hplace
      exact hcut place (h.shaderBody place hplace)

theorem scripted_step (hordered : WellOrdered g.chunks)
    (hstep : Writer.event r w walk event = .ok (w', walk')) (horderly : IsOrderly g w w' event)
    (hreleases : Releases w event) (hsubset : w'.chunks ⊆ g.chunks) (h : Scripted r g w script) :
    ∃ lines, Scripted r g w' (script ++ [⟨some ⟨w, event, walk, w'⟩, lines⟩]) := by
  by_cases hend : ∀ directive target, event ≠ .endInclude directive target
  · exact scripted_event h hend hstep (horderly.keepsPlaces hend)
  · simp only [not_forall, not_not] at hend
    obtain ⟨directive, target, rfl⟩ := hend
    cases hstep
    exact ⟨[], scripted_endInclude hordered h hreleases horderly hsubset⟩

/-! ## Runs -/

theorem scripted_run {moments : List (Moment Writer)} (hordered : WellOrdered g.chunks)
    (hrun : Run r.shader.sources (Writer.event r) w walk moments w' walk')
    (horderly : Orderly g moments) (hreleases : ∀ m ∈ moments, Releases m.before m.event)
    (hsubset : w'.chunks ⊆ g.chunks) (h : Scripted r g w script) :
    ∃ more, Scripted r g w' (script ++ more) ∧ momentsOf more = moments := by
  induction hrun generalizing script with
  | nil => exact ⟨[], by rwa [List.append_nil], rfl⟩
  | @cons w w₁ w' walk walk₁ walk₂ walk' event moments hnext hstep hrest ih =>
    -- The chunks that are there behind the event are still there at the end.
    have hchunks : w₁.chunks ⊆ g.chunks := List.Subset.trans (chunks_subset_run hrest) hsubset
    obtain ⟨lines, hscripted⟩ := scripted_step hordered hstep
      (horderly _ List.mem_cons_self) (hreleases _ List.mem_cons_self) hchunks h
    obtain ⟨rest, hscripted', hmoments⟩ := ih
      (fun m hm => horderly m (List.mem_cons_of_mem _ hm))
      (fun m hm => hreleases m (List.mem_cons_of_mem _ hm)) hsubset hscripted
    refine ⟨_ :: rest, by rwa [List.append_assoc] at hscripted', ?_⟩
    rw [momentsOf_cons, hmoments]
    rfl

/-! ## The end of a variant -/

/-- What is left to do behind the walk: the text of the main file is that of the script, and what has
been held back. -/
structure Ended (g : GeneratedShader) (lines : List String) (script : List Stroke)
    (held : List String) (shaderLine : Option Nat) : Prop where
  text : inline g.chunks lines = scriptText script ++ held
  faithful : ∀ stroke ∈ script, stroke.IsFaithful
  shaderLine : ∀ place, shaderLine = some place → NamedBy g lines script place

theorem ended_of_scripted (h : Scripted r g w script) (hnested : w.nested = [])
    (hreleased : Released w w') :
    Ended g w'.main.toList script w.held w'.outline.shaderLine ∧
      ∀ place, w'.outline.shaderBody = some place → CutBy g w' script place := by
  have hmain : w'.main.toList = w.written ++ w.held := hreleased.main_eq hnested
  have hline : w'.outline.shaderLine = w.outline.shaderLine := by rw [hreleased.outline]
  refine ⟨⟨?_, h.faithful, ?_⟩, ?_⟩
  · rw [hmain, inline_append, h.text, inline_of_filter h.clean]
  · intro place hplace
    have hnamed := (h.main.namedBy (hline ▸ hplace)).mono hreleased.main []
    rwa [List.append_nil] at hnamed
  · intro place hplace
    rw [hreleased.outline] at hplace
    have hcut := (h.shaderBody place hplace).mono hreleased.main hline []
    rwa [List.append_nil] at hcut

/-- The properties that the variant adds have no directive. -/
theorem not_isMarked_added (r : Request) : ∀ line ∈ ["Properties", "\x7b"]
    ++ r.addedProperties.map AddedProperty.line ++ ["\x7d"], Directive.isMarked line = false := by
  intro line hline
  simp only [List.mem_append, List.mem_cons, List.not_mem_nil, or_false] at hline
  rcases hline with ((rfl | rfl) | hadded) | rfl
  · decide
  · decide
  · obtain ⟨p, hp, rfl⟩ := List.mem_map.1 hadded
    rw [Directive.isMarked, head?_addedProperties hp]
    decide
  · decide

/-- The properties that the variant adds come between two strokes, behind the first brace. -/
theorem exists_ended_addProperties {held : List String}
    (h : Ended g w.main.toList script held w.outline.shaderLine)
    (hcut : ∀ place, w.outline.shaderBody = some place → CutBy g w script place)
    (hbefore : ∀ place body, w.outline.shaderLine = some place →
      w.outline.shaderBody = some body → place < body) :
    ∃ script', Ended g (w.addProperties r).main.toList script' held w.outline.shaderLine ∧
      momentsOf script' = momentsOf script := by
  simp only [Writer.addProperties]
  split
  · exact ⟨script, h, rfl⟩
  · rename_i body hbody
    split
    · exact ⟨script, h, rfl⟩
    · obtain ⟨front, back, rfl, hle, hfront, hnamed⟩ := hcut body hbody
      let added : Stroke :=
        ⟨none, ["Properties", "\x7b"] ++ r.addedProperties.map AddedProperty.line ++ ["\x7d"]⟩
      refine ⟨front ++ added :: back, ⟨?_, ?_, ?_⟩, by simp [momentsOf_cons, added]⟩
      · have htext := h.text
        rw [scriptText_append, List.append_assoc] at htext
        rw [inline_insert (inline_added g.chunks r) hfront htext]
        simp [added]
      · rw [List.forall_mem_append, List.forall_mem_cons]
        obtain ⟨hfirst, hsecond⟩ := List.forall_mem_append.1 h.faithful
        exact ⟨hfirst, not_isMarked_added r, hsecond⟩
      · intro place hplace
        have hlt := hbefore place body hplace hbody
        -- The shader line stands in front of the properties.
        obtain ⟨first, m, line, rest, rfl, houter, hline, hfirst⟩ := hnamed place hplace
        have hshorter : place < (w.main.toList.take body).length := by
          rw [List.length_take]
          omega
        refine ⟨first, m, line, rest ++ added :: back, by simp, houter, ?_, ?_⟩
        · rw [List.append_assoc, List.getElem?_append_left hshorter, List.getElem?_take_of_lt hlt]
          exact hline
        · rw [List.append_assoc, List.take_append_of_le_length (Nat.le_of_lt hshorter),
            List.take_take, Nat.min_eq_left (Nat.le_of_lt hlt)]
          exact hfirst

/-- The name of the variant takes the place of that of the shader. -/
theorem exists_script_named {lines held : List String} {place? : Option Nat}
    (h : Ended g lines script held place?)
    (hplain : ∀ place, place? = some place →
      ∃ line, lines[place]? = some line ∧ includesAny g.chunks line = false) :
    ∃ script', inline g.chunks (named g.name lines place?) = scriptText script' ++ held ∧
      momentsOf script' = momentsOf script ∧ ∀ stroke ∈ script', stroke.IsFaithful := by
  cases hplace : place? with
  | none => exact ⟨script, h.text, rfl, h.faithful⟩
  | some place =>
    obtain ⟨front, m, text, back, rfl, houter, hline, hfront⟩ := h.shaderLine place hplace
    obtain ⟨line, hsame, hincludes⟩ := hplain place hplace
    rw [hline] at hsame
    cases hsame
    have hwhole : inline g.chunks lines = scriptText front ++ text :: (scriptText back ++ held) := by
      rw [h.text]
      simp
    refine ⟨front ++ ⟨some m, ["Shader \"" ++ g.name ++ "\""]⟩ :: back, ?_, ?_, ?_⟩
    · rw [named, inline_set _ hline hincludes (not_includesAny_shaderLine g.chunks g.name) hfront
        hwhole]
      simp
    · simp [momentsOf_cons]
    · obtain ⟨hfirst, hsecond⟩ := List.forall_mem_append.1 h.faithful
      rw [List.forall_mem_append, List.forall_mem_cons]
      exact ⟨hfirst, .inr houter, (List.forall_mem_cons.1 hsecond).2⟩

end

/-- **A variant has a script**: a stroke for each moment of its walk, in their order, as long as no
included file ends while the signature of an entry point is held back. -/
theorem exists_script_of_variant {shader : Shader} {o : Options} {g : GeneratedShader}
    (hvariant : shader.variant o = .ok g) (horderly : Orderly g (Writer.moments shader o))
    (hreleases : ∀ m ∈ Writer.moments shader o, Releases m.before m.event) :
    ∃ script, IsScript g (Writer.moments shader o) script := by
  obtain ⟨substitution, w, walk, -, hrun, -, hfinish, hchunks, hnested, hsound⟩ :=
    exists_run_of_orderly hvariant horderly
  let r : Request := ⟨shader, o, substitution⟩
  have hordered : WellOrdered g.chunks := hchunks ▸ hsound.ordered
  have hsubset : w.chunks ⊆ g.chunks := by
    rw [hchunks]
    exact List.Subset.refl _
  obtain ⟨script, hscripted, hmoments⟩ :=
    @scripted_run r g _ w _ _ _ _ hordered hrun horderly hreleases hsubset (.new r g)
  obtain ⟨w', hreleased, -, hmain⟩ := finish_eq hfinish
  obtain ⟨hended, hcut⟩ := ended_of_scripted hscripted hnested hreleased
  have hplaces : ∀ place, w'.outline.shaderLine = some place →
      (∃ line, w'.main.toList[place]? = some line ∧ includesAny g.chunks line = false) ∧
        ∀ body, w'.outline.shaderBody = some body → place < body := by
    intro place hplace
    rw [hreleased.outline] at hplace ⊢
    obtain ⟨⟨line, hline, -, hincludes⟩, hbody⟩ := hsound.shaderLine place hplace
    exact ⟨⟨line, Sound.getElem?_of_main hreleased.main hline, hincludes⟩, hbody⟩
  obtain ⟨added, hadded, haddedMoments⟩ := exists_ended_addProperties (r := r) hended hcut
    fun place body hplace => (hplaces place hplace).2 body
  obtain ⟨all, htext, hallMoments, hfaithful⟩ := exists_script_named hadded (by
    intro place hplace
    obtain ⟨⟨line, hline, hincludes⟩, hbody⟩ := hplaces place hplace
    exact ⟨line, getElem?_addProperties hline hbody r, hincludes⟩)
  refine ⟨all, ?_, ⟨w.held, ?_⟩, hfaithful⟩
  · rw [hallMoments, haddedMoments, List.nil_append, hmoments]
  · rw [← htext, GeneratedShader.inlined, hmain]

end ShaderMerge.Variant
