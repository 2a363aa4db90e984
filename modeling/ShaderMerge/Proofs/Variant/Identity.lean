import ShaderMerge.Proofs.Variant.ChunkNames
import ShaderMerge.Proofs.Variant.Trail

/-!
# What the hash of a variant tells

The hash of a variant is that of its main file, in which the shader line still has the name of the
shader (`draft`).  The chunks count only by the names under which the file includes them.

From a text the chunks that have been finished for it can be read off in their order: each include
of a chunk stands for those of the lines of the chunk, and then for the chunk itself (`Completes`).
There is only one way to read them (`Completes.unique`), and a run finishes its chunks in this way
(`finishes_run`).  So two variants with one hash have the same chunks.

For this the include of a chunk has to be one that the end of an included file has written:
`IncludesChunks` leaves out sources that have such a line of their own.
-/

namespace ShaderMerge.Variant

open Include (Walk Event Moment Run)

/-! ## Reading chunks off a text -/

/-- The chunks that are finished for some lines, in order and as often as they are included. -/
inductive Completes (chunks : List GeneratedFile) : List String → List GeneratedFile → Prop
  | nil : Completes chunks [] []
  | other {line : String} {rest : List String} {finished : List GeneratedFile}
      (line_eq : includesAny chunks line = false) (behind : Completes chunks rest finished) :
      Completes chunks (line :: rest) finished
  | included {chunk : GeneratedFile} {rest : List String} {inner finished : List GeneratedFile}
      (mem : chunk ∈ chunks) (lines : Completes chunks chunk.lines inner)
      (behind : Completes chunks rest finished) :
      Completes chunks (Directive.includeLine chunk.name :: rest) (inner ++ chunk :: finished)

namespace Completes

variable {chunks finished more : List GeneratedFile} {lines first second : List String}

theorem append (h : Completes chunks first finished) (h' : Completes chunks second more) :
    Completes chunks (first ++ second) (finished ++ more) := by
  induction h with
  | nil => exact h'
  | other hline _ ih => exact .other hline ih
  | included hmem hlines _ _ ih =>
    rw [List.append_assoc]
    exact .included hmem hlines ih

theorem exists_of_append (h : Completes chunks (first ++ second) finished) :
    ∃ front back, finished = front ++ back ∧ Completes chunks first front ∧
      Completes chunks second back := by
  induction first generalizing finished with
  | nil => exact ⟨[], finished, rfl, .nil, h⟩
  | cons line rest ih =>
    cases h with
    | other hline hrest =>
      obtain ⟨front, back, rfl, hfront, hback⟩ := ih hrest
      exact ⟨front, back, rfl, .other hline hfront, hback⟩
    | @included chunk _ inner _ hmem hlines hrest =>
      obtain ⟨front, back, rfl, hfront, hback⟩ := ih hrest
      exact ⟨inner ++ chunk :: front, back, by simp, .included hmem hlines hfront, hback⟩

theorem filter_includes (h : Completes chunks lines finished) :
    Completes chunks (lines.filter (includesAny chunks)) finished := by
  induction h with
  | nil => exact .nil
  | other hline _ ih =>
    rw [List.filter_cons_of_neg (Bool.eq_false_iff.1 hline)]
    exact ih
  | included hmem hlines _ _ ih =>
    rw [List.filter_cons_of_pos (includesAny_of_mem hmem)]
    exact .included hmem hlines ih

theorem of_filter_includes (h : Completes chunks (lines.filter (includesAny chunks)) finished) :
    Completes chunks lines finished := by
  induction lines generalizing finished with
  | nil => exact h
  | cons line rest ih =>
    cases hline : includesAny chunks line with
    | false =>
      rw [List.filter_cons_of_neg (Bool.eq_false_iff.1 hline)] at h
      exact .other hline (ih h)
    | true =>
      rw [List.filter_cons_of_pos hline] at h
      cases h with
      | other hnot _ =>
        rw [hline] at hnot
        cases hnot
      | included hmem hlines hrest => exact .included hmem hlines (ih hrest)

/-- Only the includes of the chunks count. -/
theorem congr (h : Completes chunks first finished)
    (hfilter : second.filter (includesAny chunks) = first.filter (includesAny chunks)) :
    Completes chunks second finished :=
  of_filter_includes (hfilter ▸ h.filter_includes)

/-- Lines that include nothing finish nothing. -/
theorem eq_nil (h : Completes chunks lines finished)
    (hfilter : lines.filter (includesAny chunks) = []) : finished = [] := by
  have hnone := h.filter_includes
  rw [hfilter] at hnone
  cases hnone
  rfl

/-- **There is one reading.**  If the name of a chunk tells it from the others, a text tells the
chunks that are finished for it. -/
theorem unique
    (hnames : ∀ chunk ∈ chunks, ∀ other ∈ chunks, chunk.name = other.name → chunk = other)
    (h : Completes chunks lines finished) (h' : Completes chunks lines more) : finished = more := by
  -- By induction on the first reading.  The line itself says which step the second one takes.
  induction h generalizing more with
  | nil =>
    cases h'
    rfl
  | other hline _ ih =>
    cases h' with
    | other _ hrest => exact ih hrest
    | included hmem _ _ =>
      rw [includesAny_of_mem hmem] at hline
      cases hline
  | @included chunk rest inner finished hmem _ _ ihlines ihrest =>
    generalize hinclude : Directive.includeLine chunk.name = line at h'
    cases h' with
    | other hnot _ =>
      rw [← hinclude, includesAny_of_mem hmem] at hnot
      cases hnot
    | included hmem' hlines hrest =>
      -- Both include a chunk under one name, so it is one chunk with one reading of its lines.
      cases hnames chunk hmem _ hmem' (includeLine_injective hinclude)
      rw [ihlines hlines, ihrest hrest]

end Completes

/-! ## Runs -/

theorem GeneratedFile.eq_of_name_of_lines {file other : GeneratedFile}
    (hname : file.name = other.name) (hlines : file.lines = other.lines) : file = other := by
  cases file
  cases other
  cases hname
  cases hlines
  rfl

/-- Whether an event writes no include of a chunk but at the end of an included file.  That file has
not been confused with another one of its hash then, and no such include waits in a signature. -/
def IncludesChunks (chunks : List GeneratedFile) (w w' : Writer) : Event → Prop
  | .endInclude _ target =>
    w.held.filter (includesAny chunks) = [] ∧
      ∀ lines ∈ w.nested.head?, ∀ chunk ∈ chunks,
        chunk.name = (chunkOf target lines.toList).name → chunk.lines = lines.toList
  | _ => w'.lines.filter (includesAny chunks) = w.lines.filter (includesAny chunks)

instance (chunks : List GeneratedFile) (w w' : Writer) : (event : Event) →
    Decidable (IncludesChunks chunks w w' event)
  | .line _ _ => inferInstanceAs (Decidable (_ = _))
  | .include_ _ _ _ => inferInstanceAs (Decidable (_ = _))
  | .endInclude _ _ => inferInstanceAs (Decidable (_ ∧ ∀ lines ∈ _, _))

/-- What a run preserves: its chunks are those that are finished for what it has written. -/
structure Finishes (chunks : List GeneratedFile) (w : Writer) (finished : List GeneratedFile) :
    Prop where
  completes : Completes chunks w.lines finished
  chunks_eq : w.chunks = finished.foldl Sound.addChunk []

section

variable {r : Request} {chunks finished : List GeneratedFile} {w w' : Writer}
  {walk walk' : Walk}

theorem finishes_new (chunks : List GeneratedFile) (r : Request) :
    Finishes chunks (.new r) [] := ⟨.nil, rfl⟩

/-- The end of an included file finishes a chunk behind those that the file includes. -/
theorem Finishes.endInclude (h : Finishes chunks w finished) {directive target : String}
    (hincludes : IncludesChunks chunks w w' (.endInclude directive target))
    (hsubset : (w.endInclude target).chunks ⊆ chunks) :
    ∃ finished', Finishes chunks (w.endInclude target) finished' := by
  obtain ⟨hheld, hapart⟩ := hincludes
  cases hnested : w.nested with
  | nil =>
    rw [Writer.endInclude, hnested]
    exact ⟨finished, h⟩
  | cons lines outer =>
    let chunk := chunkOf target lines.toList
    let opened : Writer := { w with nested := outer, chunks := Sound.addChunk w.chunks chunk }
    rw [Sound.endInclude_eq hnested, Writer.write_chunks] at hsubset
    rw [Sound.endInclude_eq hnested]
    -- The chunk that is there under the name has the lines of the file.
    have hmem : chunk ∈ chunks := by
      obtain ⟨other, hother, hname⟩ := Sound.exists_mem_addChunk w.chunks chunk
      have hlines := hapart lines (by rw [hnested]; rfl) other (hsubset hother) hname
      exact GeneratedFile.eq_of_name_of_lines hname hlines ▸ hsubset hother
    -- What has been finished for the lines of the file comes in front of the chunk itself.
    have hsplit : w.lines = opened.written ++ lines.toList ++ w.held := by
      simp [Writer.lines, Writer.written, opened, hnested]
    obtain ⟨front, back, rfl, hfront, hback⟩ := (hsplit ▸ h.completes).exists_of_append
    obtain ⟨first, inner, rfl, hfirst, hinner⟩ := hfront.exists_of_append
    -- Nothing included waits in a signature, so the new include is the last one.
    have hnone := hback.eq_nil hheld
    subst hnone
    refine ⟨first ++ [] ++ (inner ++ [chunk]), ?_, ?_⟩
    · rw [Writer.lines_write]
      exact (hfirst.append hback).append (.included hmem hinner .nil)
    · rw [Writer.write_chunks]
      change Sound.addChunk w.chunks chunk = _
      rw [h.chunks_eq]
      simp

theorem finishes_event {event : Event} (h : Finishes chunks w finished)
    (hstep : Writer.event r w walk event = .ok (w', walk'))
    (hincludes : IncludesChunks chunks w w' event) (hsubset : w'.chunks ⊆ chunks) :
    ∃ finished', Finishes chunks w' finished' := by
  cases event with
  | line =>
    have hsame := chunks_of_not_end (by simp) hstep
    exact ⟨finished, h.completes.congr hincludes, hsame.trans h.chunks_eq⟩
  | include_ =>
    have hsame := chunks_of_not_end (by simp) hstep
    exact ⟨finished, h.completes.congr hincludes, hsame.trans h.chunks_eq⟩
  | endInclude directive target =>
    cases hstep
    exact h.endInclude hincludes hsubset

theorem finishes_run {moments : List (Moment Writer)}
    (hrun : Run r.shader.sources (Writer.event r) w walk moments w' walk')
    (hincludes : ∀ m ∈ moments, IncludesChunks chunks m.before m.after m.event)
    (hsubset : w'.chunks ⊆ chunks) (h : Finishes chunks w finished) :
    ∃ finished', Finishes chunks w' finished' := by
  induction hrun generalizing finished with
  | nil => exact ⟨finished, h⟩
  | cons _ hstep hrest ih =>
    obtain ⟨finished₁, hfinishes⟩ := finishes_event h hstep (hincludes _ List.mem_cons_self)
      (List.Subset.trans (chunks_subset_run hrest) hsubset)
    exact ih (fun m hm => hincludes m (List.mem_cons_of_mem _ hm)) hsubset hfinishes

/-- The properties that are added at the end include nothing. -/
theorem filter_addProperties (chunks : List GeneratedFile) (r : Request) (w : Writer) :
    (w.addProperties r).main.toList.filter (includesAny chunks)
      = w.main.toList.filter (includesAny chunks) := by
  simp only [Writer.addProperties]
  split
  · rfl
  · split
    · rfl
    · exact filter_insert _ fun line hline => not_includesAny_added chunks r hline

end

/-! ## The main file without its name -/

/-- The request for a variant and the writer at the end of the walk, if the request can be made. -/
def final? (shader : Shader) (o : Options) : Option (Request × Writer) :=
  match Substitution.new shader o with
  | .error _ => none
  | .ok substitution =>
    let r : Request := ⟨shader, o, substitution⟩
    some (r, ((Writer.moments shader o).getLast?.map (·.after)).getD (.new r))

/-- The lines of the main file in front of its name taking the place of the shader line. -/
def draft (shader : Shader) (o : Options) : List String :=
  ((final? shader o).map fun (r, w) =>
    (({ w with main := w.lines.toArray } : Writer).addProperties r).main.toList).getD []

/-- The place that the name takes. -/
def namePlace? (shader : Shader) (o : Options) : Option Nat :=
  (final? shader o).bind fun (_, w) => w.outline.shaderLine

section

variable {shader : Shader} {o : Options} {g : GeneratedShader} {r : Request} {w w' : Writer}
  {chunks : List GeneratedFile}

theorem after_of_run {walk walk' : Walk} {moments : List (Moment Writer)}
    (hrun : Run r.shader.sources (Writer.event r) w walk moments w' walk') :
    (moments.getLast?.map (·.after)).getD w = w' := by
  induction hrun with
  | nil => rfl
  | @cons w w₁ w' _ _ _ _ _ moments _ _ _ ih =>
    rw [← ih]
    cases moments with
    | nil => rfl
    | cons m rest => rw [List.getLast?_cons_cons]; rfl

theorem main_addProperties (hmain : w'.main = w.main) (houtline : w'.outline = w.outline)
    (r : Request) : (w'.addProperties r).main = (w.addProperties r).main := by
  simp only [Writer.addProperties, hmain, houtline]
  split
  · exact hmain
  · split
    · exact hmain
    · rfl

theorem filter_draft (hfinal : final? shader o = some (r, w)) (chunks : List GeneratedFile) :
    (draft shader o).filter (includesAny chunks) = w.lines.filter (includesAny chunks) := by
  rw [draft, hfinal]
  exact filter_addProperties chunks r _

/-- The run that makes a variant, and the variant in terms of its draft. -/
theorem exists_run_of_draft (hvariant : shader.variant o = .ok g) :
    ∃ r w walk, Run r.shader.sources (Writer.event r) (.new r) (.start r.shader.sources)
        (Writer.moments shader o) w walk ∧
      final? shader o = some (r, w) ∧ g.chunks = w.chunks ∧
      g.hash = ContentHash.ofLines (draft shader o) ∧
      g.name = "Hidden/Optimized/" ++ shader.name ++ "/" ++ ContentHash.text g.hash ∧
      g.main = ⟨safeFileName shader.name ++ "_" ++ ContentHash.text g.hash ++ ".shader",
        named g.name (draft shader o) (namePlace? shader o)⟩ := by
  obtain ⟨substitution, w, walk, hsubstitution, hrun, hend, hfinish⟩ :=
    Writer.writes_moments hvariant
  let r : Request := ⟨shader, o, substitution⟩
  obtain ⟨w', hreleased, hchunks, hhash, hname, hmain⟩ := finish_spec hfinish
  have hnested := @nested_of_end r _ _ _ _ _ hrun rfl hend
  have hfinal : final? shader o = some (r, w) := by
    have hafter := @after_of_run r _ _ _ _ _ hrun
    rw [final?, hsubstitution]
    exact congrArg (fun w => some (r, w)) hafter
  -- What is held back at the end goes behind the main file, where the draft has it as well.
  let drafted : Writer := { w with main := w.lines.toArray }
  have hdraft : draft shader o = (drafted.addProperties r).main.toList := by
    rw [draft, hfinal]
    rfl
  have hsame : (w'.addProperties r).main = (drafted.addProperties r).main := by
    have hlines : w'.main = drafted.main := by
      rw [← Array.toList_inj, hreleased.main_eq hnested]
    exact main_addProperties hlines hreleased.outline r
  have hplace : w'.outline.shaderLine = namePlace? shader o := by
    rw [hreleased.outline, namePlace?, hfinal]
    rfl
  rw [hsame, ← hdraft] at hhash hmain
  rw [hplace] at hmain
  exact ⟨r, w, walk, hrun, hfinal, hchunks.trans hreleased.chunks, hhash, hname, hmain⟩

/-- The chunks of a variant are those that are finished for its draft. -/
theorem exists_completes_draft (hvariant : shader.variant o = .ok g) (hsubset : g.chunks ⊆ chunks)
    (hincludes : ∀ m ∈ Writer.moments shader o, IncludesChunks chunks m.before m.after m.event) :
    ∃ finished, Completes chunks (draft shader o) finished ∧
      g.chunks = finished.foldl Sound.addChunk [] := by
  obtain ⟨r, w, walk, hrun, hfinal, hchunks, -⟩ := exists_run_of_draft hvariant
  rw [hchunks] at hsubset ⊢
  obtain ⟨finished, hfinishes⟩ := finishes_run hrun hincludes hsubset (finishes_new chunks r)
  exact ⟨finished, hfinishes.completes.congr (filter_draft hfinal chunks), hfinishes.chunks_eq⟩

end

/-! ## Two variants -/

/-- **The hash identifies a variant.**  Two variants of a shader that have one hash have the same
files and the same name.  Nothing of theirs collides under the hash, only the ends of included files
write includes of their chunks, and the name takes the place of the first line that names a
shader. -/
theorem files_eq_of_hash_eq {shader : Shader} {o o' : Options} {g g' : GeneratedShader}
    (hvariant : shader.variant o = .ok g) (hvariant' : shader.variant o' = .ok g')
    (happart : HashesApart (g.chunks ++ g'.chunks))
    (hdrafts : ContentHash.ofLines (draft shader o) = ContentHash.ofLines (draft shader o') →
      draft shader o = draft shader o')
    (hincludes : ∀ m ∈ Writer.moments shader o,
      IncludesChunks (g.chunks ++ g'.chunks) m.before m.after m.event)
    (hincludes' : ∀ m ∈ Writer.moments shader o',
      IncludesChunks (g.chunks ++ g'.chunks) m.before m.after m.event)
    (hplace : namePlace? shader o = (draft shader o).findIdx? Writer.isShaderLine)
    (hplace' : namePlace? shader o' = (draft shader o').findIdx? Writer.isShaderLine)
    (hhash : g.hash = g'.hash) : g.files = g'.files ∧ g.name = g'.name := by
  obtain ⟨-, -, -, -, -, -, hof, hname, hmain⟩ := exists_run_of_draft hvariant
  obtain ⟨-, -, -, -, -, -, hof', hname', hmain'⟩ := exists_run_of_draft hvariant'
  obtain ⟨finished, hcompletes, hchunks⟩ :=
    exists_completes_draft hvariant (List.subset_append_left _ _) hincludes
  obtain ⟨finished', hcompletes', hchunks'⟩ :=
    exists_completes_draft hvariant' (List.subset_append_right _ _) hincludes'
  -- Both drafts are one text, and there is only one way to read chunks off it.
  have hdraft : draft shader o = draft shader o' := hdrafts (by rw [← hof, ← hof', hhash])
  have hsame : g.name = g'.name := by rw [hname, hname', hhash]
  have hmade : ∀ chunk ∈ g.chunks ++ g'.chunks, chunk.IsChunk :=
    List.forall_mem_append.2
      ⟨(named_of_variant hvariant).made, (named_of_variant hvariant').made⟩
  have hnames : ∀ chunk ∈ g.chunks ++ g'.chunks, ∀ other ∈ g.chunks ++ g'.chunks,
      chunk.name = other.name → chunk = other := by
    intro chunk hchunk other hother heq
    exact GeneratedFile.eq_of_name_of_lines heq
      (happart.lines_of_name hchunk hother (hmade chunk hchunk) (hmade other hother) heq)
  have hfinished : finished = finished' := hcompletes.unique hnames (hdraft ▸ hcompletes')
  refine ⟨?_, hsame⟩
  rw [GeneratedShader.files, GeneratedShader.files, hmain, hmain', hplace, hplace', hdraft, hsame,
    hhash, hchunks, hchunks', hfinished]

/-- The options of two meshes in a color space. -/
def twoMeshesIn (space : ColorSpace) : Options := { twoMeshes with colorSpace := some space }

/-- The variants for both color spaces of a shader that does not look at them. -/
theorem files_eq_of_colorSpace :
    ∃ shader g g', Shader.read? (.ofFiles signatureFiles) "a.shader" = .ok shader ∧
      shader.variant (twoMeshesIn .gamma) = .ok g ∧
      shader.variant (twoMeshesIn .linear) = .ok g' ∧
      g.chunks.length = 2 ∧ g.hash = g'.hash ∧ g.files = g'.files ∧ g.name = g'.name := by
  have hlines : (Project.ofFiles signatureFiles).readLines? "a.shader" = some signatureIncluded :=
    Project.readLines?_ofFiles (by decide +kernel) (by decide +kernel)
  have hcheck : (Shader.read? (.ofFiles signatureFiles) "a.shader").toOption.any (fun shader =>
      (shader.variant (twoMeshesIn .gamma)).toOption.any fun g =>
        (shader.variant (twoMeshesIn .linear)).toOption.any fun g' =>
          decide (g.chunks.length = 2 ∧ HashesApart (g.chunks ++ g'.chunks) ∧
            draft shader (twoMeshesIn .gamma) = draft shader (twoMeshesIn .linear) ∧
            (∀ m ∈ Writer.moments shader (twoMeshesIn .gamma),
              IncludesChunks (g.chunks ++ g'.chunks) m.before m.after m.event) ∧
            (∀ m ∈ Writer.moments shader (twoMeshesIn .linear),
              IncludesChunks (g.chunks ++ g'.chunks) m.before m.after m.event) ∧
            namePlace? shader (twoMeshesIn .gamma)
              = (draft shader (twoMeshesIn .gamma)).findIdx? Writer.isShaderLine ∧
            namePlace? shader (twoMeshesIn .linear)
              = (draft shader (twoMeshesIn .linear)).findIdx? Writer.isShaderLine)) = true := by
    rw [Shader.read?, Include.Sources.load, hlines]
    decide +kernel
  obtain ⟨shader, hread, hany⟩ := exists_ok_of_any hcheck
  obtain ⟨g, hvariant, hany⟩ := exists_ok_of_any hany
  obtain ⟨g', hvariant', hg⟩ := exists_ok_of_any hany
  obtain ⟨hlength, happart, hdraft, hincludes, hincludes', hplace, hplace'⟩ := of_decide_eq_true hg
  obtain ⟨-, -, -, -, -, -, hof, -⟩ := exists_run_of_draft hvariant
  obtain ⟨-, -, -, -, -, -, hof', -⟩ := exists_run_of_draft hvariant'
  have hhash : g.hash = g'.hash := by rw [hof, hof', hdraft]
  exact ⟨shader, g, g', hread, hvariant, hvariant', hlength, hhash,
    files_eq_of_hash_eq hvariant hvariant' happart (fun _ => hdraft) hincludes hincludes' hplace
      hplace' hhash⟩

end ShaderMerge.Variant
