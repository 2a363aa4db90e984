import ShaderMerge.Proofs.Variant.Lockstep

/-!
# Variants that nothing is asked of preserve the shader

The text of a shader is read by `Sources.pieces?`, which expands an include where a program block
asks for it first in an arm that is not known to be dead.  A variant that nothing is asked of is
that text, with its name in the shader line, the symbol of variants at the start of each block, and
the arms left out that are known to be dead (`preserves_of_requestsNothing`).  The latter means
that a preprocessor hands on the same code under each choice of symbols that agrees with the seeds
of the block.

A writer `Tracks` a document in such a run: the inlined text of the one is the text of the other.
An include that is expanded in one arm of a group is not expanded again in the next one, whichever
of them is live; `includedInBothArms` has a block that loses code by that.
-/

namespace ShaderMerge.Variant

open Include (Walk Event Moment Run Document Guide Piece)
open Condition (Oracle Symbols Preprocessor)

/-- Pieces with a name in the place of the shader line, the first line outside of braces that names
the shader, given the number of open braces. -/
def renamed (name : String) : Int → List Piece → List Piece
  | _, [] => []
  | depth, .line text :: rest =>
    if depth == 0 && Writer.isShaderLine text then .line ("Shader \"" ++ name ++ "\"") :: rest
    else .line text :: renamed name (depth + braces text) rest
  | depth, .block number first lines last :: rest =>
    .block number first lines last :: renamed name depth rest

theorem renamed_of_isUnnamed {name : String} {depth : Int} {pieces : List Piece}
    (h : isUnnamed depth pieces = true) : renamed name depth pieces = pieces := by
  induction pieces generalizing depth with
  | nil => rfl
  | cons piece rest ih =>
    cases piece with
    | line text =>
      rw [isUnnamed, Bool.and_eq_true, Bool.not_eq_true'] at h
      rw [renamed, if_neg (by simp [h.1]), ih h.2]
    | block number first lines last => rw [renamed, ih h]

/-- The first line that names the shader takes the name. -/
theorem renamed_append {name text : String} {depth : Int} {before after : List Piece}
    (hbefore : isUnnamed depth before = true)
    (hdepth : depth + balance (outerLines before) = 0) (htext : Writer.isShaderLine text = true) :
    renamed name depth (before ++ .line text :: after)
      = before ++ .line ("Shader \"" ++ name ++ "\"") :: after := by
  induction before generalizing depth with
  | nil =>
    have hzero : depth = 0 := (Int.add_zero depth).symm.trans hdepth
    rw [hzero]
    simp [renamed, htext]
  | cons piece rest ih =>
    cases piece with
    | line line =>
      rw [isUnnamed, Bool.and_eq_true, Bool.not_eq_true'] at hbefore
      have hrest : depth + braces line + balance (outerLines rest) = 0 := by
        rw [Int.add_assoc]
        exact hdepth
      rw [List.cons_append, renamed, if_neg (by simp [hbefore.1]), ih hbefore.2 hrest]
      rfl
    | block number first lines last =>
      rw [List.cons_append, renamed, ih hbefore hdepth]
      rfl

/-! ## The relation of the texts -/

/-- Where the shader line stands: at a place of the main file, and behind some pieces. -/
structure StandsAt (g : GeneratedShader) (filters : Nat → Condition.Filter) (w : Writer)
    (d : Document Condition.Filter) (place : Nat) (before : List Piece) (text : String) : Prop where
  pieces : before ++ [.line text] <+: d.pieces
  unnamed : isUnnamed 0 before = true
  outside : balance (outerLines before) = 0
  shader : Writer.isShaderLine text = true
  main : w.main.toList[place]? = some text
  front : inline g.chunks (w.main.toList.take place) = before.flatMap (pieceText filters)

/-- A writer whose inlined text is the text of a document. -/
structure Tracks (r : Request) (g : GeneratedShader) (w : Writer)
    (d : Document Condition.Filter) : Prop where
  follows : Follows r w d
  text : inline g.chunks w.lines = documentText (r.shader.blockFilter r.options) d
  named : ∀ place, w.outline.shaderLine = some place →
    ∃ before text, StandsAt g (r.shader.blockFilter r.options) w d place before text

section

variable {r : Request} {g : GeneratedShader} {w w' : Writer} {d d' : Document Condition.Filter}
  {walk walk' : Walk} {event : Event} {moments : List (Moment Writer)}

theorem Tracks.new {r : Request} (hr : r.IsIdle) (g : GeneratedShader) :
    Tracks r g (.new r) .empty where
  follows := .new hr
  text := inline_nil g.chunks
  named place hplace := by cases hplace

/-- What grows behind the shader line does not move it. -/
theorem StandsAt.mono {filters : Nat → Condition.Filter} {place : Nat} {before : List Piece}
    {text : String} (h : StandsAt g filters w d place before text)
    (hmain : w.main.toList <+: w'.main.toList) (hpieces : d.pieces <+: d'.pieces) :
    StandsAt g filters w' d' place before text := by
  refine ⟨h.pieces.trans hpieces, h.unnamed, h.outside, h.shader,
    Sound.getElem?_of_main hmain h.main, ?_⟩
  obtain ⟨rest, hrest⟩ := hmain
  have hle : place ≤ w.main.toList.length := Nat.le_of_lt (List.getElem?_eq_some_iff.1 h.main).1
  rw [← hrest, List.take_append_of_le_length hle]
  exact h.front

/-- The lines of a writer that writes to the main file and holds nothing back. -/
theorem Follows.lines_of_nil (h : Follows r w d) (hnested : w.nested = []) :
    w.lines = w.main.toList := by
  rw [Writer.lines, Writer.written, hnested, h.held_eq]
  simp

/-- What grows alike stays one text. -/
theorem Tracks.of_growsAlike (h : Tracks r g w d) (hgrows : GrowsAlike r w w' d d')
    (hmain : w.main.toList <+: w'.main.toList) (hplaces : KeepsPlaces g w w') :
    Tracks r g w' d' := by
  obtain ⟨new, hlines, htext⟩ := hgrows.lines
  refine ⟨hgrows.follows, ?_, ?_⟩
  · have hincludes := hplaces.includes
    rw [hlines, List.filter_append, List.append_right_eq_self] at hincludes
    rw [hlines, inline_append, h.text, htext, inline_of_filter hincludes]
  · intro place hplace
    obtain hsame | ⟨text, hnone, hsome, hshader, houtside, hopened, hpieces, hput⟩ := hgrows.marks
    · obtain ⟨before, text, hstands⟩ := h.named place (hsame.symm.trans hplace)
      exact ⟨before, text, hstands.mono hmain hgrows.pieces⟩
    -- The shader line has just been written, behind all that the document has.
    · have hchanged : w'.outline.shaderLine ≠ w.outline.shaderLine := by
        rw [hnone, hsome]
        exact Option.some_ne_none _
      have hnested := (hplaces.shaderLine hchanged).2
      rw [hsome] at hplace
      cases hplace
      refine ⟨d.pieces, text, ?_, h.follows.unnamed hnone, ?_, hshader, ?_, ?_⟩
      · exact hpieces ▸ List.prefix_refl _
      · exact h.follows.depth.symm.trans houtside
      · rw [hput hnested, ← Array.length_toList, List.getElem?_append_right (Nat.le_refl _)]
        simp
      · rw [hput hnested, ← Array.length_toList, List.take_left,
          ← h.follows.lines_of_nil hnested, h.text, documentText_of_none hopened]

/-- The end of an included file puts the include of a chunk in the place of its lines. -/
theorem Tracks.endInclude (hordered : WellOrdered g.chunks) (h : Tracks r g w d) {target : String}
    (hnames : NamesChunk g w target) (hsubset : (w.endInclude target).chunks ⊆ g.chunks) :
    Tracks r g (w.endInclude target) d := by
  cases hnested : w.nested with
  | nil =>
    rw [Writer.endInclude, hnested]
    exact h
  | cons lines outer =>
    have hline := inline_chunkOf hordered hnames hsubset hnested
    have hextends := Writer.extends_write
      { w with nested := outer, chunks := Sound.addChunk w.chunks (chunkOf target lines.toList) }
      [Directive.includeLine (chunkOf target lines.toList).name]
    rw [← Sound.endInclude_eq hnested] at hextends
    refine ⟨h.follows.endInclude target, ?_, ?_⟩
    · have hheld := h.follows.held_eq
      rw [← h.text, Sound.endInclude_eq hnested, Writer.lines_write, inline_append, hline]
      rw [Writer.held] at hheld
      simp only [Writer.lines, Writer.written, Writer.held, hnested, hheld, List.reverse_cons,
        List.flatMap_append, List.flatMap_cons, List.flatMap_nil, List.append_nil, inline_append,
        List.append_assoc]
    · intro place hplace
      rw [hextends.outline] at hplace
      obtain ⟨before, text, hstands⟩ := h.named place hplace
      exact ⟨before, text, hstands.mono hextends.main (List.prefix_refl _)⟩

theorem tracks_event (hr : r.IsIdle) (hordered : WellOrdered g.chunks) (h : Tracks r g w d)
    (hnext : ∀ file directive target, event = .include_ file directive target →
      (Include.target? directive).isSome = true)
    (hread : Writer.event r w walk event = .ok (w', walk')) (horderly : IsOrderly g w w' event)
    (hsubset : w'.chunks ⊆ g.chunks) :
    ∃ d', d.step r.shader.sources (r.shader.blockGuide r.options) walk event = .ok (d', walk') ∧
      Tracks r g w' d' := by
  by_cases hend : ∀ directive target, event ≠ .endInclude directive target
  · obtain ⟨d', hstep, hgrows⟩ := inStep_event hr h.follows hnext hend hread
    have hmain : w.main.toList <+: w'.main.toList := by
      obtain ⟨w₁, hmoves, ⟨rfl, -⟩ | ⟨rfl, -⟩⟩ := Writer.moves_event hend hread
      · exact hmoves.main
      · exact hmoves.main
    exact ⟨d', hstep, h.of_growsAlike hgrows hmain (horderly.keepsPlaces hend)⟩
  · simp only [not_forall, not_not] at hend
    obtain ⟨directive, target, rfl⟩ := hend
    cases hread
    exact ⟨d, rfl, h.endInclude hordered horderly hsubset⟩

/-- A run of the writer is one of the document. -/
theorem tracks_run (hr : r.IsIdle) (hordered : WellOrdered g.chunks)
    (hrun : Run r.shader.sources (Writer.event r) w walk moments w' walk')
    (horderly : Orderly g moments) (hsubset : w'.chunks ⊆ g.chunks) (h : Tracks r g w d) :
    ∃ read d', Run r.shader.sources
        (Document.step r.shader.sources (r.shader.blockGuide r.options)) d walk read d' walk' ∧
      Tracks r g w' d' := by
  induction hrun generalizing d with
  | nil => exact ⟨[], d, .nil, h⟩
  | @cons w w₁ w' walk walk₁ walk₂ walk' event moments hnext hstep hrest ih =>
    have hcounts := Walk.counts_next r.shader.sources walk
    rw [hnext] at hcounts
    have htarget : ∀ file directive target, event = .include_ file directive target →
        (Include.target? directive).isSome = true := by
      rintro file directive target rfl
      exact hcounts.1
    obtain ⟨d₁, hread, htracks⟩ := tracks_event hr hordered h htarget hstep
      (horderly _ List.mem_cons_self) (List.Subset.trans (chunks_subset_run hrest) hsubset)
    obtain ⟨read, d', hreads, htracks'⟩ :=
      ih (fun m hm => horderly m (List.mem_cons_of_mem _ hm)) hsubset htracks
    exact ⟨_, d', .cons hnext hread hreads, htracks'⟩

/-! ## The end of a variant -/

/-- Behind the walk, the name is put in the place of the shader line. -/
theorem inlined_of_tracks (hr : r.IsIdle) (h : Tracks r g w d) (hsound : Sound g w)
    (hnested : w.nested = []) (hfinish : w.finish r = .ok g) :
    g.inlined
      = (renamed g.name 0 d.finish).flatMap (pieceText (r.shader.blockFilter r.options)) := by
  obtain ⟨w', hreleased, -, hmain⟩ := finish_eq hfinish
  have hlines : w'.main.toList = w.main.toList :=
    (hreleased.main_eq hnested).trans (h.follows.lines_of_nil hnested)
  have htext := h.text
  rw [h.follows.lines_of_nil hnested, documentText, Document.finish, List.flatMap_append] at htext
  rw [GeneratedShader.inlined, hmain, hr.addProperties_eq, hlines, hreleased.outline,
    Document.finish]
  cases hplace : w.outline.shaderLine with
  | none =>
    -- No line names the shader, and a block that is still open at the end has none that could.
    have hopened : ∀ depth, isUnnamed depth
        (d.opened.map fun b => Piece.block b.number b.first b.lines none).toList = true := by
      intro depth
      cases d.opened <;> rfl
    have hunnamed : isUnnamed 0
        (d.pieces ++ (d.opened.map fun b => Piece.block b.number b.first b.lines none).toList)
          = true := by
      rw [isUnnamed_append, h.follows.unnamed hplace, hopened]
      rfl
    rw [renamed_of_isUnnamed hunnamed, List.flatMap_append]
    exact htext
  | some place =>
    -- The line of the main file and the piece are the first of their texts that name the shader.
    obtain ⟨before, text, hstands⟩ := h.named place hplace
    obtain ⟨after, hpieces⟩ := hstands.pieces
    have hlt := (List.getElem?_eq_some_iff.1 hstands.main).1
    obtain ⟨⟨line, hline, -, hincludes⟩, -⟩ := hsound.shaderLine place hplace
    rw [hstands.main] at hline
    cases hline
    have hnew := not_includesAny_shaderLine g.chunks g.name
    have hwhole : inline g.chunks w.main.toList
        = before.flatMap (pieceText (r.shader.blockFilter r.options)) ++ text ::
          (after ++ (d.opened.map fun b => Piece.block b.number b.first b.lines none).toList).flatMap
            (pieceText (r.shader.blockFilter r.options)) := by
      rw [htext, ← hpieces]
      simp [pieceText]
    rw [named, inline_set _ hstands.main hincludes hnew hstands.front hwhole, ← hpieces,
      List.append_assoc, List.append_assoc]
    change _ = (renamed g.name 0 (before ++ Piece.line text :: (after ++ _))).flatMap _
    rw [renamed_append hstands.unnamed (by rw [hstands.outside]; rfl) hstands.shader]
    simp only [List.flatMap_append, List.flatMap_cons, pieceText, List.cons_append, List.nil_append]

end

/-! ## Main result -/

/-- What is written for the lines of a program block means what they mean: a preprocessor hands on
the same code under each choice of symbols that agrees with the seeds of the block. -/
def PreservesBlock (shader : Shader) (o : Options) (number : Nat) (lines : List String) : Prop :=
  ∀ oracle : Oracle, oracle.IsSound (.ofProperties o.textureUsage) → ∀ σ : Symbols,
    σ.Extends (Condition.Filter.new
      (Program.seed o number ((shader.passes[number]?).getD .empty))).defined →
    let text := (shader.blockFilter o number).text lines
    let symbol := "#define " ++ variantSymbol
    Preprocessor.code oracle σ text = Preprocessor.code oracle σ lines ∧
      (σ variantSymbol = true →
        Preprocessor.code oracle σ (symbol :: text) = symbol :: Preprocessor.code oracle σ lines)

theorem preservesBlock (shader : Shader) (o : Options) (number : Nat) (lines : List String) :
    PreservesBlock shader o number lines := by
  intro oracle horacle σ hσ text symbol
  have hsame : Preprocessor.code oracle σ text = Preprocessor.code oracle σ lines :=
    Condition.Filter.text_preserves horacle hσ lines
  refine ⟨hsame, fun hsymbol => ?_⟩
  rw [Preprocessor.code_define (by decide +kernel) hsymbol, hsame]

/-- **A variant that nothing is asked of preserves the shader.**  Its inlined text is the text of
the sources, which no other depth of the reading changes, with its name in the shader line; and what it
has for a program block, the definition of the symbol aside, means what the lines of the block
mean. -/
theorem preserves_of_requestsNothing {shader : Shader} {o : Options} {g : GeneratedShader}
    (ho : o.RequestsNothing) (hvariant : shader.variant o = .ok g)
    (horderly : Orderly g (Writer.moments shader o)) :
    ∃ depth pieces, shader.sources.pieces? (shader.blockGuide o) depth = some pieces ∧
      (∀ other pieces', shader.sources.pieces? (shader.blockGuide o) other = some pieces' →
        pieces' = pieces) ∧
      g.inlined = (renamed g.name 0 pieces).flatMap (pieceText (shader.blockFilter o)) ∧
      ∀ number first lines last, Piece.block number first lines last ∈ pieces →
        PreservesBlock shader o number lines := by
  obtain ⟨substitution, w, walk, hsubstitution, hrun, hend, hfinish, hchunks, hnested, hsound⟩ :=
    exists_run_of_orderly hvariant horderly
  have hr : Request.IsIdle ⟨shader, o, substitution⟩ :=
    ⟨ho, Substitution.isEmpty_of_new ho hsubstitution⟩
  have hsubset : w.chunks ⊆ g.chunks := by
    rw [hchunks]
    exact List.Subset.refl _
  obtain ⟨read, d, hread, htracks⟩ := @tracks_run ⟨shader, o, substitution⟩ _ _ _ _ _ _ _ hr
    (hchunks ▸ hsound.ordered) hrun horderly hsubset (.new hr g)
  obtain ⟨depth, hpieces⟩ := Include.pieces?_of_run hread hend
  have hinlined := inlined_of_tracks hr htracks hsound hnested hfinish
  refine ⟨depth, d.finish, hpieces, ?_, hinlined, ?_⟩
  · intro other pieces' hother
    exact Include.Sources.pieces?_unique hother hpieces
  · intro number first lines last _
    exact preservesBlock shader o number lines

/-! ## A file in both arms of a group -/

/-- A shader whose program block includes a file in both arms of an undecided group. -/
def includedInBothArms : List String :=
  ["Shader \"S\"", "\x7b", "Pass", "\x7b", "CGPROGRAM", "#pragma vertex vert",
    "#pragma fragment frag", "#ifdef USER", "#include \"a.cginc\"", "#else",
    "#include \"a.cginc\"", "#endif", "float4 vert() : SV_Position \x7b return 0; \x7d",
    "float4 frag() : SV_Target \x7b return 1; \x7d", "ENDCG", "\x7d", "\x7d"]

/-- The project of the shader and of the file that it includes. -/
def bothArms : Project :=
  .ofFiles [("a.shader", includedInBothArms), ("a.cginc", ["float helper;"])]

theorem readLines?_bothArms : bothArms.readLines? "a.shader" = some includedInBothArms :=
  Project.readLines?_ofFiles (by decide +kernel) (by decide +kernel)

/-- The guide that expands includes where they stand in live text under a choice of symbols. -/
def assignedGuide (oracle : Oracle) (σ : Symbols) : Guide Preprocessor where
  start _ := .start σ
  read := Preprocessor.step oracle
  isLive := Preprocessor.isLive

/-- The text of a program block of the variant: the file is expanded in the first arm. -/
def expandedInFirstArm : List String :=
  ["#pragma vertex vert", "#pragma fragment frag", "#ifdef USER", "float helper;", "#else",
    "#endif", "float4 vert() : SV_Position", "\x7b", "return 0;", "\x7d",
    "float4 frag() : SV_Target", "\x7b", "return 1;", "\x7d"]

/-- The text of the block if an include is expanded where it is live first under a choice of symbols
that does not define `USER`: the file is expanded in the second arm. -/
def expandedInLiveArm : List String :=
  ["#pragma vertex vert", "#pragma fragment frag", "#ifdef USER", "#include \"a.cginc\"", "#else",
    "float helper;", "#endif", "float4 vert() : SV_Position", "\x7b", "return 0;", "\x7d",
    "float4 frag() : SV_Target", "\x7b", "return 1;", "\x7d"]

/-- The symbols of the variant, among which there is no `USER`. -/
def variantSymbols : Symbols := fun name => name == variantSymbol

/-- What the runs on the shader come to: the variant has the file in the first arm, and the text in
which includes are expanded where they are live has it in the second one. -/
theorem exists_variant_bothArms :
    ∃ shader g, Shader.read? bothArms "a.shader" = .ok shader ∧ shader.variant .new = .ok g ∧
      g.chunks.map (·.lines) = [["float helper;"]] ∧ Orderly g (Writer.moments shader .new) ∧
      Program.seed .new 0 ((shader.passes[0]?).getD .empty) = [(variantSymbol, true)] ∧
      (∃ front back, g.inlined = front
        ++ "CGPROGRAM" :: ("#define " ++ variantSymbol) :: expandedInFirstArm ++ "ENDCG" :: back) ∧
      ∃ pieces, shader.sources.pieces? (assignedGuide .ofExpr variantSymbols) 40 = some pieces ∧
        Piece.block 0 "CGPROGRAM" expandedInLiveArm (some "ENDCG") ∈ pieces := by
  have hcheck : (Shader.read? bothArms "a.shader").toOption.any (fun shader =>
      decide (Program.seed .new 0 ((shader.passes[0]?).getD .empty) = [(variantSymbol, true)]) &&
      ((shader.sources.pieces? (assignedGuide .ofExpr variantSymbols) 40).any (fun pieces =>
        decide (Piece.block 0 "CGPROGRAM" expandedInLiveArm (some "ENDCG") ∈ pieces)) &&
      (shader.variant .new).toOption.any fun g : GeneratedShader =>
        decide (g.chunks.map (·.lines) = [["float helper;"]]) &&
        (decide (Orderly g (Writer.moments shader .new)) &&
          decide ((g.inlined.drop 4).take 17
            = "CGPROGRAM" :: ("#define " ++ variantSymbol) :: expandedInFirstArm ++ ["ENDCG"])))) = true := by
    rw [Shader.read?, Include.Sources.load, readLines?_bothArms]
    decide +kernel
  obtain ⟨shader, hread, hshader⟩ := exists_ok_of_any hcheck
  rw [Bool.and_eq_true, Bool.and_eq_true, decide_eq_true_eq] at hshader
  obtain ⟨hseed, hpieces, hany⟩ := hshader
  obtain ⟨g, hvariant, hg⟩ := exists_ok_of_any hany
  rw [Bool.and_eq_true, Bool.and_eq_true, decide_eq_true_eq, decide_eq_true_eq, decide_eq_true_eq]
    at hg
  obtain ⟨pieces, hread', hblock⟩ := (Option.any_eq_true _ _).1 hpieces
  have hinlined : g.inlined = g.inlined.take 4
      ++ "CGPROGRAM" :: ("#define " ++ variantSymbol) :: expandedInFirstArm
      ++ "ENDCG" :: (g.inlined.drop 4).drop 17 := by
    conv_lhs => rw [← List.take_append_drop 4 g.inlined, ← List.take_append_drop 17 (g.inlined.drop 4),
      hg.2.2]
    simp only [List.append_assoc, List.cons_append, List.nil_append]
  exact ⟨shader, g, hread, hvariant, hg.1, hg.2.1, hseed, ⟨_, _, hinlined⟩, pieces, hread',
    of_decide_eq_true hblock⟩

theorem preserves_of_includedInBothArms :
    ∃ shader g, Shader.read? bothArms "a.shader" = .ok shader ∧ shader.variant .new = .ok g ∧
      g.chunks.map (·.lines) = [["float helper;"]] ∧
      ∃ depth pieces, shader.sources.pieces? (shader.blockGuide .new) depth = some pieces ∧
        (∀ other pieces', shader.sources.pieces? (shader.blockGuide .new) other = some pieces' →
          pieces' = pieces) ∧
        g.inlined = (renamed g.name 0 pieces).flatMap (pieceText (shader.blockFilter .new)) ∧
        ∀ number first lines last, Piece.block number first lines last ∈ pieces →
          PreservesBlock shader .new number lines := by
  obtain ⟨shader, g, hread, hvariant, hchunks, horderly, -⟩ := exists_variant_bothArms
  exact ⟨shader, g, hread, hvariant, hchunks,
    preserves_of_requestsNothing (by decide) hvariant horderly⟩

/-- A choice of symbols that agrees with the seeds of a block need not find the code of the text in
which includes are expanded where they are live under it: the arm that is live has lost its
include to an arm that is dead. -/
theorem not_preserved_of_includedInBothArms :
    ∃ shader g, ∃ σ : Symbols, Shader.read? bothArms "a.shader" = .ok shader ∧
      Options.RequestsNothing .new ∧ shader.variant .new = .ok g ∧
      Orderly g (Writer.moments shader .new) ∧
      σ.Extends (Condition.Filter.new
        (Program.seed .new 0 ((shader.passes[0]?).getD .empty))).defined ∧
      (∃ front back, g.inlined = front
        ++ "CGPROGRAM" :: ("#define " ++ variantSymbol) :: expandedInFirstArm ++ "ENDCG" :: back) ∧
      (∃ depth pieces, shader.sources.pieces? (assignedGuide .ofExpr σ) depth = some pieces ∧
        Piece.block 0 "CGPROGRAM" expandedInLiveArm (some "ENDCG") ∈ pieces) ∧
      Preprocessor.code .ofExpr σ (("#define " ++ variantSymbol) :: expandedInFirstArm)
        ≠ ("#define " ++ variantSymbol) :: Preprocessor.code .ofExpr σ expandedInLiveArm := by
  obtain ⟨shader, g, hread, hvariant, -, horderly, hseed, hinlined, pieces, hpieces, hblock⟩ :=
    exists_variant_bothArms
  have hσ : variantSymbols.Extends (Condition.Filter.new
      (Program.seed .new 0 ((shader.passes[0]?).getD .empty))).defined := by
    intro name value hget
    have hmem := Condition.Filter.mem_of_defined_new hget
    rw [hseed, List.mem_singleton, Prod.mk.injEq] at hmem
    rw [hmem.1, hmem.2]
    rfl
  exact ⟨shader, g, variantSymbols, hread, by decide, hvariant, horderly, hσ, hinlined,
    ⟨40, pieces, hpieces, hblock⟩, by decide +kernel⟩

end ShaderMerge.Variant
