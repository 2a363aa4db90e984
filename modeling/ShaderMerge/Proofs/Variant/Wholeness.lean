import ShaderMerge.Proofs.Variant.Inlining
import ShaderMerge.Proofs.Variant.Numbering
import ShaderMerge.Proofs.Variant.Outline

/-!
# Whether a variant is whole

A text is whole if it closes as many braces as it opens and ends each program block that it starts.
The writer checks the braces of a program block at its end, but neither those outside of program
blocks nor that the last block has been ended.  So a variant is whole exactly if the lines that the
filters let through are (`isWhole_iff`), whatever the regions drop.

Two runs lead there.  `Sound` collects what the run preserves of chunks and of the place of the
shader line; `adds_run` is the ledger of the inlined text.
-/

namespace ShaderMerge.Variant

open Include (Walk Event Moment Run isMarker isProgramStart isBlockEnd)

/-- Whether every program block that starts among some lines is ended before another one starts; a
block may be open in front of them. -/
def endsBlocks : Bool → List String → Bool
  | isOpen, [] => !isOpen
  | isOpen, line :: rest =>
    if isProgramStart line then !isOpen && endsBlocks true rest
    else if isBlockEnd line then endsBlocks false rest
    else endsBlocks isOpen rest

/-- A text that closes what it opens. -/
structure IsWhole (lines : List String) : Prop where
  balanced : balance lines = 0
  ended : endsBlocks false lines = true

instance (lines : List String) : Decidable (IsWhole lines) :=
  decidable_of_iff (balance lines = 0 ∧ endsBlocks false lines = true)
    ⟨fun h => ⟨h.1, h.2⟩, fun h => ⟨h.balanced, h.ended⟩⟩

/-- The lines that a writer reads and its filters let through. -/
def liveLines (moments : List (Moment Writer)) : List String :=
  moments.flatMap fun m => m.before.live m.event

theorem endsBlocks_filter (isOpen : Bool) (lines : List String) :
    endsBlocks isOpen (lines.filter isMarker) = endsBlocks isOpen lines := by
  induction lines generalizing isOpen with
  | nil => rfl
  | cons line rest ih =>
    cases hmarker : isMarker line with
    | true =>
      rw [List.filter_cons_of_pos hmarker, endsBlocks, endsBlocks, ih, ih, ih]
    | false =>
      rw [List.filter_cons_of_neg (Bool.eq_false_iff.1 hmarker), ih]
      rw [isMarker, Bool.or_eq_false_iff] at hmarker
      rw [endsBlocks, if_neg (by simp [hmarker.1]), if_neg (by simp [hmarker.2])]

/-- A text that has grown from nothing is whole if what it has grown by is. -/
theorem isWhole_iff_of_adds {after new : List String} (h : Adds [] after new) :
    IsWhole after ↔ IsWhole new := by
  have hbalance : balance after = balance new := by
    rw [h.balance_eq, balance_nil, Int.zero_add]
  have hended : endsBlocks false after = endsBlocks false new := by
    rw [← endsBlocks_filter, h.markers_eq, List.filter_nil, List.nil_append, endsBlocks_filter]
  constructor
  · intro hwhole
    exact ⟨hbalance ▸ hwhole.balanced, hended ▸ hwhole.ended⟩
  · intro hwhole
    exact ⟨hbalance ▸ hwhole.balanced, hended ▸ hwhole.ended⟩

/-! ## Orderly runs -/

/-- The chunk that an included file becomes. -/
def chunkOf (target : String) (lines : List String) : GeneratedFile :=
  ⟨chunkName (Include.fileStem target) (ContentHash.ofLines lines), lines⟩

/-- An included file ends under a name that no other chunk has, unless it has the same lines, and
no marker is held back then. -/
def NamesChunk (g : GeneratedShader) (w : Writer) (target : String) : Prop :=
  ∀ lines ∈ w.nested.head?,
    (∀ chunk ∈ g.chunks, chunk.name = (chunkOf target lines.toList).name →
      chunk.lines = lines.toList) ∧
    ∀ line ∈ inline g.chunks w.held, isMarker line = false

/-- The includes of chunks stay where they are among the markers, and the shader line, when it is
read, stands in the main file in front of the first brace. -/
structure KeepsPlaces (g : GeneratedShader) (w w' : Writer) : Prop where
  includes : w'.lines.filter (includesAny g.chunks) = w.lines.filter (includesAny g.chunks)
  fixed : w.lines.filter (isFixed g.chunks) <+: w'.lines.filter (isFixed g.chunks)
  shaderLine : w'.outline.shaderLine ≠ w.outline.shaderLine →
    w.outline.shaderBody = none ∧ w.nested = []

/-- An event in which nothing collides with the chunks of a variant. -/
def IsOrderly (g : GeneratedShader) (w w' : Writer) : Event → Prop
  | .endInclude _ target => NamesChunk g w target
  | _ => KeepsPlaces g w w'

instance (g : GeneratedShader) (w : Writer) (target : String) :
    Decidable (NamesChunk g w target) :=
  inferInstanceAs (Decidable (∀ lines ∈ w.nested.head?, _ ∧ _))

instance (g : GeneratedShader) (w w' : Writer) : Decidable (KeepsPlaces g w w') :=
  decidable_of_iff
    (w'.lines.filter (includesAny g.chunks) = w.lines.filter (includesAny g.chunks) ∧
      w.lines.filter (isFixed g.chunks) <+: w'.lines.filter (isFixed g.chunks) ∧
      (w'.outline.shaderLine ≠ w.outline.shaderLine →
        w.outline.shaderBody = none ∧ w.nested = []))
    ⟨fun h => ⟨h.1, h.2.1, h.2.2⟩, fun h => ⟨h.includes, h.fixed, h.shaderLine⟩⟩

instance (g : GeneratedShader) (w w' : Writer) : (event : Event) →
    Decidable (IsOrderly g w w' event)
  | .line _ _ => inferInstanceAs (Decidable (KeepsPlaces g w w'))
  | .include_ _ _ _ => inferInstanceAs (Decidable (KeepsPlaces g w w'))
  | .endInclude _ target => inferInstanceAs (Decidable (NamesChunk g w target))

theorem IsOrderly.keepsPlaces {g : GeneratedShader} {w w' : Writer} {event : Event}
    (h : IsOrderly g w w' event)
    (hend : ∀ directive target, event ≠ .endInclude directive target) : KeepsPlaces g w w' := by
  cases event with
  | line => exact h
  | include_ => exact h
  | endInclude directive target => exact absurd rfl (hend directive target)

/-! ## Chunks and the shader line -/

/-- What a run preserves: only finished chunks are included, in their order, and the shader line
stands at its place, in front of the body of the shader. -/
structure Sound (g : GeneratedShader) (w : Writer) : Prop where
  known : ∀ line ∈ w.lines, includesAny g.chunks line = true → includesAny w.chunks line = true
  knownChunks : ∀ chunk ∈ w.chunks, ∀ line ∈ chunk.lines, includesAny g.chunks line = true →
    includesAny w.chunks line = true
  ordered : WellOrdered w.chunks
  shaderLine : ∀ place, w.outline.shaderLine = some place →
    (∃ line, w.main.toList[place]? = some line ∧ isStructural line = false ∧
      includesAny g.chunks line = false) ∧
    ∀ body, w.outline.shaderBody = some body → place < body

namespace Sound

variable {r : Request} {g : GeneratedShader} {w w' : Writer}

theorem new (g : GeneratedShader) (r : Request) : Sound g (.new r) where
  known := by simp [Writer.lines, Writer.written, Writer.held, Writer.new]
  knownChunks := by simp [Writer.new]
  ordered := ⟨.nil, by simp [Writer.new]⟩
  shaderLine := by simp [Writer.new]

/-- A place in the main file stays what it is. -/
theorem getElem?_of_main (h : w.main.toList <+: w'.main.toList) {place : Nat} {line : String}
    (hline : w.main.toList[place]? = some line) : w'.main.toList[place]? = some line := by
  obtain ⟨rest, hrest⟩ := h
  rw [← hrest, List.getElem?_append_left (List.getElem?_eq_some_iff.1 hline).1]
  exact hline

theorem of_moves (h : Sound g w) (hmoves : Writer.Moves w w') (hplaces : KeepsPlaces g w w') :
    Sound g w' where
  known line hline hincludes := by
    have hmem : line ∈ w'.lines.filter (includesAny g.chunks) := List.mem_filter.2 ⟨hline, hincludes⟩
    rw [hplaces.includes] at hmem
    rw [hmoves.chunks]
    exact h.known line (List.mem_filter.1 hmem).1 hincludes
  knownChunks := by
    rw [hmoves.chunks]
    exact h.knownChunks
  ordered := by
    rw [hmoves.chunks]
    exact h.ordered
  shaderLine place hplace := by
    rcases hmoves.remembers with ⟨hsame, hbody⟩ | ⟨body, hsame, hnone, hsome, hbehind, -⟩ |
      ⟨text, hnone, hsome, hbody, hplain, hlines, hmain⟩
    · rw [hsame] at hplace
      obtain ⟨⟨line, hline, hrest⟩, hlt⟩ := h.shaderLine place hplace
      rw [hbody]
      exact ⟨⟨line, getElem?_of_main hmoves.main hline, hrest⟩, hlt⟩
    · rw [hsame] at hplace
      obtain ⟨⟨line, hline, hrest⟩, -⟩ := h.shaderLine place hplace
      refine ⟨⟨line, getElem?_of_main hmoves.main hline, hrest⟩, ?_⟩
      intro body' hbody'
      rw [hsome] at hbody'
      cases hbody'
      have hlt := (List.getElem?_eq_some_iff.1 hline).1
      rw [Array.length_toList] at hlt
      exact Nat.lt_of_lt_of_le hlt hbehind
    -- The shader line is the one that has just been written, and no brace has been read.
    · have hchanged : w'.outline.shaderLine ≠ w.outline.shaderLine := by
        rw [hnone, hsome]
        exact Option.some_ne_none _
      obtain ⟨hfirst, hnested⟩ := hplaces.shaderLine hchanged
      rw [hsome] at hplace
      cases hplace
      refine ⟨⟨text, ?_, hplain, ?_⟩, ?_⟩
      · rw [hmain hnested, ← Array.length_toList, List.getElem?_append_right (Nat.le_refl _)]
        simp
      · have hincludes := hplaces.includes
        rw [hlines, List.filter_append, List.append_right_eq_self, List.filter_eq_nil_iff]
          at hincludes
        exact Bool.eq_false_iff.2 (hincludes text List.mem_cons_self)
      · intro body hbody'
        rw [hbody, hfirst] at hbody'
        cases hbody'

/-- Some chunks and one more, unless there is one of its name. -/
def addChunk (chunks : List GeneratedFile) (chunk : GeneratedFile) : List GeneratedFile :=
  if chunks.any (·.name = chunk.name) then chunks else chunks ++ [chunk]

theorem subset_addChunk (chunks : List GeneratedFile) (chunk : GeneratedFile) :
    chunks ⊆ addChunk chunks chunk := by
  rw [addChunk]
  split
  · exact List.Subset.refl _
  · exact List.subset_append_left _ _

theorem exists_mem_addChunk (chunks : List GeneratedFile) (chunk : GeneratedFile) :
    ∃ other ∈ addChunk chunks chunk, other.name = chunk.name := by
  rw [addChunk]
  split
  · rename_i hany
    obtain ⟨other, hmem, hname⟩ := List.any_eq_true.1 hany
    exact ⟨other, hmem, of_decide_eq_true hname⟩
  · exact ⟨chunk, List.mem_append_right _ List.mem_cons_self, rfl⟩

theorem endInclude_eq {lines : Array String} {outer : List (Array String)}
    (hnested : w.nested = lines :: outer) (target : String) :
    w.endInclude target
      = { w with nested := outer, chunks := addChunk w.chunks (chunkOf target lines.toList) }.write
        [Directive.includeLine (chunkOf target lines.toList).name] := by
  rw [Writer.endInclude, hnested]
  rfl

theorem mem_lines_of_outer {lines : Array String} {outer : List (Array String)}
    (hnested : w.nested = lines :: outer) {chunks : List GeneratedFile} {line : String}
    (h : line ∈ ({ w with nested := outer, chunks } : Writer).lines) : line ∈ w.lines := by
  rw [Writer.lines, Writer.written, hnested]
  rw [Writer.lines, Writer.written] at h
  simp only [List.mem_append, List.reverse_cons, List.flatMap_append] at h ⊢
  rcases h with (hmain | houter) | hheld
  · exact .inl (.inl hmain)
  · exact .inl (.inr (.inl houter))
  · exact .inr hheld

/-- A chunk that is added includes only chunks in front of it. -/
theorem ordered_addChunk (h : Sound g w) {chunk : GeneratedFile}
    (hlines : ∀ line ∈ chunk.lines, line ∈ w.lines)
    (hsubset : addChunk w.chunks chunk ⊆ g.chunks) : WellOrdered (addChunk w.chunks chunk) := by
  rw [addChunk] at hsubset ⊢
  split
  · exact h.ordered
  · rename_i hany
    rw [if_neg hany] at hsubset
    have hfresh : ∀ other ∈ w.chunks, other.name ≠ chunk.name := by
      intro other hother hname
      exact hany (List.any_eq_true.2 ⟨other, hother, by simpa using hname⟩)
    -- No chunk includes the one that is added: its include would be one of a known chunk.
    have hunknown : includesAny w.chunks (Directive.includeLine chunk.name) = false := by
      rw [Bool.eq_false_iff]
      intro hincludes
      obtain ⟨other, hmem, heq⟩ := exists_of_includesAny hincludes
      exact hfresh other hmem (includeLine_injective heq).symm
    have hnew := includesAny_of_mem (hsubset (List.mem_append_right _ List.mem_cons_self))
    apply h.ordered.append_chunk hfresh
    intro other hother hline
    have hknown : includesAny w.chunks (Directive.includeLine chunk.name) = true := by
      rcases List.mem_append.1 hother with hmem | hmem
      · exact h.knownChunks other hmem _ hline hnew
      · rw [List.mem_singleton.1 hmem] at hline
        exact h.known _ (hlines _ hline) hnew
    rw [hunknown] at hknown
    cases hknown

/-- The end of an included file finishes a chunk that includes only finished ones. -/
theorem of_endInclude (h : Sound g w) {lines : Array String} {outer : List (Array String)}
    (hnested : w.nested = lines :: outer) {target : String}
    (hsubset : (w.endInclude target).chunks ⊆ g.chunks) : Sound g (w.endInclude target) := by
  have hextends := Writer.extends_write
    { w with nested := outer, chunks := addChunk w.chunks (chunkOf target lines.toList) }
    [Directive.includeLine (chunkOf target lines.toList).name]
  rw [← endInclude_eq hnested] at hextends
  have hchunks := hextends.chunks
  have hlines : ∀ line ∈ lines.toList, line ∈ w.lines := by
    intro line hline
    rw [Writer.lines, Writer.written, hnested]
    simp [hline]
  have hmono := subset_addChunk w.chunks (chunkOf target lines.toList)
  dsimp only at hchunks
  rw [hchunks] at hsubset
  refine ⟨?_, ?_, ?_, ?_⟩
  · intro line hline hincludes
    rw [hchunks]
    rw [endInclude_eq hnested, Writer.lines_write] at hline
    rcases List.mem_append.1 hline with hline | hline
    · exact includesAny_mono hmono (h.known line (mem_lines_of_outer hnested hline) hincludes)
    · obtain ⟨other, hmem, hname⟩ := exists_mem_addChunk w.chunks (chunkOf target lines.toList)
      rw [List.mem_singleton.1 hline, ← hname]
      exact includesAny_of_mem hmem
  · intro chunk hchunk line hline hincludes
    rw [hchunks] at hchunk ⊢
    apply includesAny_mono hmono
    rw [addChunk] at hchunk
    split at hchunk
    · exact h.knownChunks chunk hchunk line hline hincludes
    · rcases List.mem_append.1 hchunk with hchunk | hchunk
      · exact h.knownChunks chunk hchunk line hline hincludes
      · rw [List.mem_singleton.1 hchunk] at hline
        exact h.known line (hlines line hline) hincludes
  · rw [hchunks]
    exact ordered_addChunk h hlines hsubset
  · intro place hplace
    rw [hextends.outline] at hplace ⊢
    obtain ⟨⟨line, hline, hrest⟩, hlt⟩ := h.shaderLine place hplace
    exact ⟨⟨line, getElem?_of_main hextends.main hline, hrest⟩, hlt⟩

/-- A chunk that starts includes nothing. -/
theorem of_push (h : Sound g w) : Sound g { w with nested := #[] :: w.nested } := by
  refine ⟨?_, h.knownChunks, h.ordered, h.shaderLine⟩
  rw [Writer.lines_push]
  exact h.known

theorem of_event {walk walk' : Walk} {event : Event} (h : Sound g w)
    (hevent : Writer.event r w walk event = .ok (w', walk')) (horderly : IsOrderly g w w' event)
    (hsubset : w'.chunks ⊆ g.chunks) : Sound g w' := by
  by_cases hend : ∀ directive target, event ≠ .endInclude directive target
  · have hplaces := horderly.keepsPlaces hend
    obtain ⟨w₁, hmoves, ⟨rfl, -⟩ | ⟨rfl, -⟩⟩ := Writer.moves_event hend hevent
    · exact h.of_moves hmoves hplaces
    · apply of_push
      apply h.of_moves hmoves
      have hlines := w₁.lines_push
      exact ⟨hlines ▸ hplaces.includes, hlines ▸ hplaces.fixed, hplaces.shaderLine⟩
  · simp only [not_forall, not_not] at hend
    obtain ⟨directive, target, rfl⟩ := hend
    cases hevent
    cases hnested : w.nested with
    | nil =>
      rw [Writer.endInclude, hnested]
      exact h
    | cons lines outer => exact h.of_endInclude hnested hsubset

end Sound

/-! ## Runs -/

section

variable {r : Request} {g : GeneratedShader} {w w' : Writer} {walk walk' : Walk}
  {moments : List (Moment Writer)}

theorem chunks_of_not_end {event : Event}
    (hend : ∀ directive target, event ≠ .endInclude directive target)
    (h : Writer.event r w walk event = .ok (w', walk')) : w'.chunks = w.chunks := by
  obtain ⟨w₁, hmoves, ⟨rfl, -⟩ | ⟨rfl, -⟩⟩ := Writer.moves_event hend h
  · exact hmoves.chunks
  · exact hmoves.chunks

/-- What an event makes of the chunks: the end of an included file may add one. -/
theorem chunks_event {event : Event} (h : Writer.event r w walk event = .ok (w', walk')) :
    w'.chunks = w.chunks ∨
      ∃ target lines, w'.chunks = Sound.addChunk w.chunks (chunkOf target lines) := by
  by_cases hend : ∀ directive target, event ≠ .endInclude directive target
  · exact .inl (chunks_of_not_end hend h)
  · simp only [not_forall, not_not] at hend
    obtain ⟨directive, target, rfl⟩ := hend
    cases h
    cases hnested : w.nested with
    | nil =>
      rw [Writer.endInclude, hnested]
      exact .inl rfl
    | cons lines outer =>
      rw [Sound.endInclude_eq hnested, Writer.write_chunks]
      exact .inr ⟨target, lines.toList, rfl⟩

theorem chunks_subset_event {event : Event}
    (h : Writer.event r w walk event = .ok (w', walk')) : w.chunks ⊆ w'.chunks := by
  rcases chunks_event h with hsame | ⟨target, lines, hadded⟩
  · rw [hsame]
    exact List.Subset.refl _
  · rw [hadded]
    exact Sound.subset_addChunk _ _

theorem chunks_subset_run (h : Run r.shader.sources (Writer.event r) w walk moments w' walk') :
    w.chunks ⊆ w'.chunks :=
  h.invariant (P := fun state => w.chunks ⊆ state.chunks) (List.Subset.refl _)
    fun _ _ _ _ _ hsubset hstep => List.Subset.trans hsubset (chunks_subset_event hstep)

/-- A run whose moments are all orderly. -/
def Orderly (g : GeneratedShader) (moments : List (Moment Writer)) : Prop :=
  ∀ m ∈ moments, IsOrderly g m.before m.after m.event

instance (g : GeneratedShader) (moments : List (Moment Writer)) : Decidable (Orderly g moments) :=
  inferInstanceAs (Decidable (∀ m ∈ moments, IsOrderly g m.before m.after m.event))

theorem sound_run (hrun : Run r.shader.sources (Writer.event r) w walk moments w' walk')
    (horderly : Orderly g moments) (hsubset : w'.chunks ⊆ g.chunks) (h : Sound g w) :
    Sound g w' := by
  induction hrun with
  | nil => exact h
  | cons hnext hstep hrest ih =>
    have hevent := horderly _ List.mem_cons_self
    have hsound := h.of_event hstep hevent (List.Subset.trans (chunks_subset_run hrest) hsubset)
    exact ih (fun m hm => horderly m (List.mem_cons_of_mem _ hm)) hsubset hsound

/-- A chunk is being written for each included file that is being walked. -/
theorem nested_run (hrun : Run r.shader.sources (Writer.event r) w walk moments w' walk')
    (h : w.nested.length = walk.included) : w'.nested.length = walk'.included := by
  induction hrun with
  | nil => exact h
  | @cons w w₁ w' walk walk₁ walk₂ walk' event moments hnext hstep _ ih =>
    apply ih
    have hcounts := Walk.counts_next r.shader.sources walk
    rw [hnext] at hcounts
    by_cases hend : ∀ directive target, event ≠ .endInclude directive target
    · have hsame : walk₁.included = walk.included := by
        cases event with
        | line => exact hcounts
        | include_ => exact hcounts.2
        | endInclude directive target => exact absurd rfl (hend directive target)
      obtain ⟨w₂, hmoves, ⟨rfl, hincluded⟩ | ⟨rfl, hincluded⟩⟩ := Writer.moves_event hend hstep
      · rw [hmoves.nested, hincluded, hsame, h]
      · rw [List.length_cons, hmoves.nested, hincluded, hsame, h]
    · simp only [not_forall, not_not] at hend
      obtain ⟨directive, target, rfl⟩ := hend
      cases hstep
      have hcount : walk.included = walk₁.included + 1 := hcounts
      cases hnested : w.nested with
      | nil =>
        rw [hnested, List.length_nil, hcount] at h
        cases h
      | cons lines outer =>
        rw [hnested, List.length_cons, hcount] at h
        rw [Sound.endInclude_eq hnested, (Writer.extends_write _ _).nested]
        exact Nat.succ.inj h

/-- At the end of a walk no chunk is being written. -/
theorem nested_of_end (hrun : Run r.shader.sources (Writer.event r) w walk moments w' walk')
    (h : w.nested.length = walk.included) (hend : walk'.next r.shader.sources = none) :
    w'.nested = [] := by
  have hcount := nested_run hrun h
  have hnone := Walk.counts_next r.shader.sources walk'
  rw [hend] at hnone
  rw [← List.length_eq_zero_iff, hcount]
  exact hnone

theorem isStructural_of_target? {directive : String}
    (h : (Include.target? directive).isSome = true) : isStructural directive = false := by
  obtain ⟨target, htarget⟩ := Option.isSome_iff_exists.1 h
  simp only [Include.target?, Option.bind_eq_bind, Option.bind_eq_some_iff] at htarget
  obtain ⟨rest, hrest, -⟩ := htarget
  exact isStructural_of_mem (mem_of_afterChar? hrest).1 (by decide)

/-- The include of a chunk that an included file becomes counts as much as the lines of the file. -/
theorem inline_chunkOf (hordered : WellOrdered g.chunks) {target : String}
    (hnames : NamesChunk g w target) (hsubset : (w.endInclude target).chunks ⊆ g.chunks)
    {lines : Array String} {outer : List (Array String)} (hnested : w.nested = lines :: outer) :
    inline g.chunks [Directive.includeLine (chunkOf target lines.toList).name]
      = inline g.chunks lines.toList := by
  obtain ⟨hsame, -⟩ := hnames lines (by rw [hnested]; rfl)
  rw [Sound.endInclude_eq hnested, Writer.write_chunks] at hsubset
  obtain ⟨chunk, hmem, hname⟩ := Sound.exists_mem_addChunk w.chunks (chunkOf target lines.toList)
  rw [← hname, inline_includeLine hordered (hsubset hmem), hsame chunk (hsubset hmem) hname]

/-- The end of an included file changes nothing in the inlined text but the place of what is held
back. -/
theorem adds_endInclude (hordered : WellOrdered g.chunks) {target : String}
    (hnames : NamesChunk g w target) (hsubset : (w.endInclude target).chunks ⊆ g.chunks) :
    Adds (inline g.chunks w.lines) (inline g.chunks (w.endInclude target).lines) [] := by
  cases hnested : w.nested with
  | nil =>
    rw [Writer.endInclude, hnested]
    exact .refl _
  | cons lines outer =>
    obtain ⟨-, hheld⟩ := hnames lines (by rw [hnested]; rfl)
    have hline := inline_chunkOf hordered hnames hsubset hnested
    have hmarkers : (inline g.chunks w.held).filter isMarker = [] := by
      rw [List.filter_eq_nil_iff]
      intro line hmem
      rw [hheld line hmem]
      exact Bool.false_ne_true
    rw [Sound.endInclude_eq hnested, Writer.lines_write, inline_append, hline]
    simp only [Writer.lines, Writer.written, Writer.held, hnested, List.reverse_cons,
      List.flatMap_append, List.flatMap_cons, List.flatMap_nil, List.append_nil, inline_append]
      at hmarkers ⊢
    constructor
    · simp only [balance_append, balance_nil]
      omega
    · simp only [List.filter_append, hmarkers, List.append_nil, List.nil_append, List.filter_nil,
        List.append_assoc]

/-- An event adds to the inlined text the line that it reads. -/
theorem adds_event {event : Event} (hordered : WellOrdered g.chunks) (hdefers : w.DefersPlain)
    (hnext : ∀ file directive target, event = .include_ file directive target →
      (Include.target? directive).isSome = true)
    (h : Writer.event r w walk event = .ok (w', walk')) (horderly : IsOrderly g w w' event)
    (hsubset : w'.chunks ⊆ g.chunks) :
    Adds (inline g.chunks w.lines) (inline g.chunks w'.lines) (w.live event) ∧
      w'.DefersPlain := by
  by_cases hend : ∀ directive target, event ≠ .endInclude directive target
  · have hplaces := horderly.keepsPlaces hend
    have hgrows := Writer.grows_event hdefers
      (fun file directive target heq => isStructural_of_target? (hnext file directive target heq))
      hend h
    exact ⟨adds_inline hgrows.adds hplaces.includes hplaces.fixed, hgrows.defers⟩
  · simp only [not_forall, not_not] at hend
    obtain ⟨directive, target, rfl⟩ := hend
    cases h
    refine ⟨adds_endInclude hordered horderly hsubset, ?_⟩
    cases hnested : w.nested with
    | nil =>
      rw [Writer.endInclude, hnested]
      exact hdefers
    | cons lines outer =>
      rw [Sound.endInclude_eq hnested]
      exact (@Writer.grows_write
        { w with nested := outer, chunks := Sound.addChunk w.chunks (chunkOf target lines.toList) }
        hdefers _).defers

theorem adds_run (hordered : WellOrdered g.chunks) (hdefers : w.DefersPlain)
    (hrun : Run r.shader.sources (Writer.event r) w walk moments w' walk')
    (horderly : Orderly g moments) (hsubset : w'.chunks ⊆ g.chunks) :
    Adds (inline g.chunks w.lines) (inline g.chunks w'.lines) (liveLines moments) := by
  induction hrun with
  | nil => exact .refl _
  | @cons w w₁ w' walk walk₁ walk₂ walk' event moments hnext hstep hrest ih =>
    have hcounts := Walk.counts_next r.shader.sources walk
    rw [hnext] at hcounts
    have htarget : ∀ file directive target, event = .include_ file directive target →
        (Include.target? directive).isSome = true := by
      rintro file directive target rfl
      exact hcounts.1
    obtain ⟨hadds, hdefers₁⟩ := adds_event hordered hdefers htarget hstep
      (horderly _ List.mem_cons_self) (List.Subset.trans (chunks_subset_run hrest) hsubset)
    exact hadds.trans
      (ih hdefers₁ (fun m hm => horderly m (List.mem_cons_of_mem _ hm)) hsubset)

end

/-! ## The end of a variant -/

theorem not_includesAny_of_head? {chunks : List GeneratedFile} {line : String}
    (h : line.toList.head? ≠ some '#') : includesAny chunks line = false := by
  rw [Bool.eq_false_iff]
  intro hincludes
  obtain ⟨chunk, -, rfl⟩ := exists_of_includesAny hincludes
  refine h (head?_append_left _ (head?_append_left _ ?_))
  decide

theorem not_includesAny_shaderLine (chunks : List GeneratedFile) (name : String) :
    includesAny chunks ("Shader \"" ++ name ++ "\"") = false := by
  apply not_includesAny_of_head?
  rw [head?_append_left _
    (head?_append_left _ (by decide : "Shader \"".toList.head? = some 'S'))]
  decide

/-- A line in the place of another one leaves out as much as the other one did. -/
theorem filter_set {p : String → Bool} {lines : List String} {place : Nat} {line : String}
    (text : String) (hline : lines[place]? = some line) (hbefore : p line = false)
    (hafter : p text = false) : (lines.set place text).filter p = lines.filter p := by
  induction lines generalizing place with
  | nil => rfl
  | cons first rest ih =>
    cases place with
    | zero =>
      cases hline
      rw [List.set_cons_zero, List.filter_cons_of_neg (Bool.eq_false_iff.1 hbefore),
        List.filter_cons_of_neg (Bool.eq_false_iff.1 hafter)]
    | succ place =>
      rw [List.set_cons_succ, List.filter_cons, List.filter_cons, ih hline]

/-- What the end of a variant does to the lines of the main file: it may add neutral lines, none of
which includes a chunk, and may overwrite a line with another. -/
theorem adds_set {chunks : List GeneratedFile} {lines : List String} {place : Nat} {line : String}
    {text : String} (hline : lines[place]? = some line) (hplain : isStructural line = false)
    (hincludes : includesAny chunks line = false) (htext : text.toList.head? = some 'S')
    (hstructural : isStructural text = false) :
    Adds (inline chunks lines) (inline chunks (lines.set place text)) [] := by
  have hnone : includesAny chunks text = false :=
    not_includesAny_of_head? (by rw [htext]; decide)
  have hfixed : ∀ line, includesAny chunks line = false → isStructural line = false →
      isFixed chunks line = false := by
    intro line hincludes hplain
    rw [isFixed, hincludes, isMarker_eq_false hplain]
    rfl
  refine adds_inline (.of_filter ?_) ?_ ?_
  · rw [filter_set text hline hplain hstructural]
    simp
  · exact filter_set text hline hincludes hnone
  · have hsame := filter_set text hline (hfixed line hincludes hplain)
      (hfixed text hnone hstructural)
    exact ⟨[], by rw [List.append_nil, hsame]⟩

/-- Lines that a test does not pick can be put in anywhere. -/
theorem filter_insert {p : String → Bool} {lines block : List String} (place : Nat)
    (hp : ∀ line ∈ block, p line = false) :
    (lines.take place ++ block ++ lines.drop place).filter p = lines.filter p := by
  have hnone : block.filter p = [] := by
    rw [List.filter_eq_nil_iff]
    intro line hline
    rw [hp line hline]
    exact Bool.false_ne_true
  rw [List.filter_append, List.filter_append, hnone, List.append_nil, ← List.filter_append,
    List.take_append_drop]

theorem adds_block {chunks : List GeneratedFile} {lines block : List String} (place : Nat)
    (hblock : Neutral block) (hincludes : ∀ line ∈ block, includesAny chunks line = false) :
    Adds (inline chunks lines)
      (inline chunks (lines.take place ++ block ++ lines.drop place)) [] := by
  have hinsert := Adds.insert (lines.take place) (lines.drop place) hblock
  rw [List.take_append_drop] at hinsert
  have hfixed : ∀ line ∈ block, isFixed chunks line = false := by
    intro line hline
    rw [isFixed, hincludes line hline, hblock.plain line hline]
    rfl
  exact adds_inline hinsert (filter_insert place hincludes)
    ⟨[], by rw [List.append_nil, filter_insert place hfixed]⟩

section

variable {r : Request} {g : GeneratedShader} {w w' : Writer}

/-- A writer behind the walk whose last block, if one was still open, has been ended. -/
structure Released (w w' : Writer) : Prop where
  lines : w'.lines = w.lines
  held : w'.held = []
  main : w.main.toList <+: w'.main.toList
  outline : w'.outline = w.outline
  chunks : w'.chunks = w.chunks
  nested : w'.nested.length = w.nested.length

theorem released_endProgram {p : Program} (hprogram : w.program = some p)
    (h : w.endProgram p none = .ok w') : Released w w' := by
  have hlines := Writer.lines_endProgram hprogram h
  obtain ⟨held, report, -, rfl⟩ := Writer.endProgram_eq h
  have hextends := Writer.extends_put { w with program := none, reports := w.reports ++ report }
    (held ++ [])
  refine ⟨?_, ?_, hextends.main, hextends.outline, hextends.chunks, hextends.nested⟩
  · rw [hlines, Option.toList_none, List.append_nil]
  · rw [Writer.held, Writer.put_program]
    rfl

/-- The lines of a main file with a name in the place of its shader line. -/
def named (name : String) (lines : List String) : Option Nat → List String
  | some place => lines.set place ("Shader \"" ++ name ++ "\"")
  | none => lines

/-- The variant at the end: the properties are added, its hash is that of the main file, and its
name takes the place of the shader line. -/
theorem finish_spec (h : w.finish r = .ok g) :
    ∃ w', Released w w' ∧ g.chunks = w'.chunks ∧
      g.hash = ContentHash.ofLines (w'.addProperties r).main.toList ∧
      g.name = "Hidden/Optimized/" ++ r.shader.name ++ "/" ++ ContentHash.text g.hash ∧
      g.main = ⟨safeFileName r.shader.name ++ "_" ++ ContentHash.text g.hash ++ ".shader",
        named g.name (w'.addProperties r).main.toList w'.outline.shaderLine⟩ := by
  have houtline : ∀ w' : Writer, (w'.addProperties r).outline = w'.outline ∧
      (w'.addProperties r).chunks = w'.chunks := by
    intro w'
    simp only [Writer.addProperties]
    split
    · exact ⟨rfl, rfl⟩
    · split
      · exact ⟨rfl, rfl⟩
      · exact ⟨rfl, rfl⟩
  rw [Writer.finish] at h
  cases hprogram : w.program with
  | none =>
    rw [hprogram] at h
    cases h
    have hheld := Writer.held_of_none hprogram
    refine ⟨w, ⟨rfl, hheld, List.prefix_refl _, rfl, rfl, rfl⟩, (houtline w).2, rfl, rfl, ?_⟩
    rw [← (houtline w).1]
    rfl
  | some p =>
    rw [hprogram] at h
    obtain ⟨w', hend, h⟩ := exists_ok_of_bind h
    cases h
    refine ⟨w', released_endProgram hprogram hend, (houtline w').2, rfl, rfl, ?_⟩
    rw [← (houtline w').1]
    rfl

/-- The main file at the end: the properties are added, and the name takes its place. -/
theorem finish_eq (h : w.finish r = .ok g) :
    ∃ w', Released w w' ∧ g.chunks = w'.chunks ∧
      g.main.lines = named g.name (w'.addProperties r).main.toList w'.outline.shaderLine := by
  obtain ⟨w', hreleased, hchunks, -, -, hmain⟩ := finish_spec h
  exact ⟨w', hreleased, hchunks, congrArg GeneratedFile.lines hmain⟩

/-- The properties that are added include nothing. -/
theorem not_includesAny_added (chunks : List GeneratedFile) (r : Request) {line : String}
    (h : line ∈ ["Properties", "\x7b"] ++ r.addedProperties.map AddedProperty.line ++ ["\x7d"]) :
    includesAny chunks line = false := by
  apply not_includesAny_of_head?
  simp only [List.mem_append, List.mem_cons, List.not_mem_nil, or_false] at h
  rcases h with ((rfl | rfl) | hadded) | rfl
  · decide
  · decide
  · obtain ⟨p, hp, rfl⟩ := List.mem_map.1 hadded
    rw [head?_addedProperties hp]
    decide
  · decide

theorem inline_added (chunks : List GeneratedFile) (r : Request) :
    inline chunks (["Properties", "\x7b"] ++ r.addedProperties.map AddedProperty.line ++ ["\x7d"])
      = ["Properties", "\x7b"] ++ r.addedProperties.map AddedProperty.line ++ ["\x7d"] := by
  apply inline_of_filter
  rw [List.filter_eq_nil_iff]
  intro line hline
  rw [not_includesAny_added chunks r hline]
  exact Bool.false_ne_true

theorem adds_addProperties (chunks : List GeneratedFile) (r : Request) (w : Writer) :
    Adds (inline chunks w.main.toList) (inline chunks (w.addProperties r).main.toList) [] := by
  simp only [Writer.addProperties]
  split
  · exact .refl _
  · split
    · exact .refl _
    · rename_i place _ _
      refine adds_block place ?_ fun line hline => not_includesAny_added chunks r hline
      have hhead : hasPlainChar "Properties" = true := hasPlainChar_of_second (by decide)
      simpa using Neutral.cons hhead (Neutral.block (.inl rfl) (neutral_added r))

/-- In front of the first brace nothing is added. -/
theorem getElem?_addProperties {place : Nat} {line : String}
    (hline : w.main.toList[place]? = some line)
    (hbody : ∀ body, w.outline.shaderBody = some body → place < body) (r : Request) :
    (w.addProperties r).main.toList[place]? = some line := by
  simp only [Writer.addProperties]
  split
  · exact hline
  · rename_i body heq
    split
    · exact hline
    · have hlt := hbody body heq
      have hfront : place < (w.main.toList.take body).length := by
        rw [List.length_take]
        have hlength := (List.getElem?_eq_some_iff.1 hline).1
        omega
      rw [List.append_assoc, List.getElem?_append_left hfront, List.getElem?_take_of_lt hlt]
      exact hline

/-- The main file behind the walk, in which no chunk is being written any more. -/
theorem Released.main_eq {w' : Writer} (h : Released w w') (hnested : w.nested = []) :
    w'.main.toList = w.lines := by
  have hnone : w'.nested = [] := by
    rw [← List.length_eq_zero_iff, h.nested, hnested]
    rfl
  rw [← h.lines, Writer.lines, Writer.written, hnone, h.held]
  simp

/-- The end of a variant adds nothing to the structure of the inlined text. -/
theorem adds_finish (hsound : Sound g w) (hnested : w.nested = []) (h : w.finish r = .ok g) :
    Adds (inline g.chunks w.lines) g.inlined [] := by
  obtain ⟨w', hreleased, hchunks, hmain⟩ := finish_eq h
  have hlines := hreleased.main_eq hnested
  have hadded := adds_addProperties g.chunks r w'
  rw [hlines] at hadded
  rw [GeneratedShader.inlined, hmain]
  cases hplace : w'.outline.shaderLine with
  | none => exact hadded
  | some place =>
    rw [hreleased.outline] at hplace
    obtain ⟨⟨line, hline, hplain, hincludes⟩, hbody⟩ := hsound.shaderLine place hplace
    rw [← hreleased.outline] at hbody
    have hplaced := getElem?_addProperties (Sound.getElem?_of_main hreleased.main hline) hbody r
    refine hadded.trans (adds_set hplaced hplain hincludes ?_ ?_)
    · exact head?_append_left _ (head?_append_left _ (by decide))
    · exact isStructural_of_hasPlainChar
        (hasPlainChar_append_left _ (hasPlainChar_append_left _ (hasPlainChar_of_second (by decide))))

end

/-- What an orderly run that makes a variant comes to. -/
theorem exists_run_of_orderly {shader : Shader} {o : Options} {g : GeneratedShader}
    (hvariant : shader.variant o = .ok g) (horderly : Orderly g (Writer.moments shader o)) :
    ∃ substitution w walk, Substitution.new shader o = .ok substitution ∧
      Run shader.sources (Writer.event ⟨shader, o, substitution⟩) (.new ⟨shader, o, substitution⟩)
        (.start shader.sources) (Writer.moments shader o) w walk ∧
      walk.next shader.sources = none ∧ w.finish ⟨shader, o, substitution⟩ = .ok g ∧
      w.chunks = g.chunks ∧ w.nested = [] ∧ Sound g w := by
  obtain ⟨substitution, w, walk, hsubstitution, hrun, hend, hfinish⟩ :=
    Writer.writes_moments hvariant
  have hchunks : w.chunks = g.chunks := by
    obtain ⟨w', hreleased, hsame, -⟩ := finish_eq hfinish
    rw [hsame, hreleased.chunks]
  have hsubset : w.chunks ⊆ g.chunks := by
    rw [hchunks]
    exact List.Subset.refl _
  have hsound := @sound_run ⟨shader, o, substitution⟩ _ _ _ _ _ _ hrun horderly hsubset (.new g _)
  have hnested := @nested_of_end ⟨shader, o, substitution⟩ _ _ _ _ _ hrun rfl hend
  exact ⟨substitution, w, walk, hsubstitution, hrun, hend, hfinish, hchunks, hnested, hsound⟩

/-- In an orderly run the variant is whole exactly if the lines that its filters let through are:
the end of the writer adds no check to those of the program blocks. -/
theorem isWhole_iff {shader : Shader} {o : Options} {g : GeneratedShader}
    (hvariant : shader.variant o = .ok g) (horderly : Orderly g (Writer.moments shader o)) :
    IsWhole g.inlined ↔ IsWhole (liveLines (Writer.moments shader o)) := by
  obtain ⟨substitution, w, walk, -, hrun, hend, hfinish⟩ := Writer.writes_moments hvariant
  have hchunks : w.chunks = g.chunks := by
    obtain ⟨w', hreleased, hsame, -⟩ := finish_eq hfinish
    rw [hsame, hreleased.chunks]
  have hsubset : w.chunks ⊆ g.chunks := by
    rw [hchunks]
    exact List.Subset.refl _
  have hsound := sound_run (r := ⟨shader, o, substitution⟩) hrun horderly hsubset (.new g _)
  have hordered : WellOrdered g.chunks := hchunks ▸ hsound.ordered
  have hnested := nested_of_end (r := ⟨shader, o, substitution⟩) hrun rfl hend
  have hdefers : (Writer.new ⟨shader, o, substitution⟩).DefersPlain := by
    intro p hp
    cases hp
  have hwritten := adds_run (r := ⟨shader, o, substitution⟩) hordered hdefers hrun horderly hsubset
  have hwhole := hwritten.trans (adds_finish hsound hnested hfinish)
  rw [List.append_nil] at hwhole
  apply isWhole_iff_of_adds
  have hstart : inline g.chunks (Writer.new ⟨shader, o, substitution⟩).lines = [] :=
    inline_nil g.chunks
  rw [hstart] at hwhole
  exact hwhole

/-- A shader with a region that holds the brace that closes a pass. -/
def closedInRegion : List String :=
  ["Shader \"S\"", "\x7b", "Properties \x7b _A (\"A\", Float) = 0", "\x7d", "Pass", "\x7b",
    "CGPROGRAM", "#pragma vertex vert", "#pragma fragment frag",
    "float4 vert() : SV_Position \x7b return 0; \x7d",
    "float4 frag() : SV_Target \x7b return 1; \x7d", "ENDCG", "#ifex _A == 1", "\x7d", "#endex",
    "\x7d"]

/-- The shader is whole and the variant that drops the region is not, but there is no error. -/
theorem isWhole_iff_of_closedInRegion :
    ∃ shader g, Shader.read? (.ofFiles [("a.shader", closedInRegion)]) "a.shader" = .ok shader ∧
      shader.sources.IsBlocked ∧ IsWhole shader.sources.mainLines ∧
      shader.variant firstDropped = .ok g ∧ ¬ IsWhole g.inlined ∧
      (IsWhole g.inlined ↔ IsWhole (liveLines (Writer.moments shader firstDropped))) := by
  have hlines : (Project.ofFiles [("a.shader", closedInRegion)]).readLines? "a.shader"
      = some closedInRegion :=
    Project.readLines?_ofFiles (by decide +kernel) (by decide +kernel)
  have hcheck : (Shader.read? (.ofFiles [("a.shader", closedInRegion)]) "a.shader").toOption.any
      (fun shader => decide shader.sources.IsBlocked && decide (IsWhole shader.sources.mainLines) &&
        (shader.variant firstDropped).toOption.any fun g : GeneratedShader =>
          decide (¬ IsWhole g.inlined)
            && decide (Orderly g (Writer.moments shader firstDropped))) = true := by
    rw [Shader.read?, Include.Sources.load, hlines]
    decide +kernel
  obtain ⟨shader, hread, hshader⟩ := exists_ok_of_any hcheck
  rw [Bool.and_eq_true, Bool.and_eq_true, decide_eq_true_eq, decide_eq_true_eq] at hshader
  obtain ⟨⟨hblocked, hsource⟩, hany⟩ := hshader
  obtain ⟨g, hvariant, hg⟩ := exists_ok_of_any hany
  rw [Bool.and_eq_true, decide_eq_true_eq, decide_eq_true_eq] at hg
  exact ⟨shader, g, hread, hblocked, hsource, hvariant, hg.1, isWhole_iff hvariant hg.2⟩

end ShaderMerge.Variant
