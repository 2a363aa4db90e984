import ShaderMerge.Proofs.Include.Expansion
import ShaderMerge.Proofs.Variant.Untouched
import ShaderMerge.Proofs.Variant.Wholeness

/-!
# A writer and the text of its sources in step

If nothing is asked of a variant, its writer and `Document.step` meet the same events of the walk
and descend into the same files, as the filter of a program block and the guide of the document are
one.  `Follows` relates the two states; an event preserves it, and both grow by the same lines
(`inStep_event`).  The document keeps the lines of a block as they are read, and `pieceText` gives
what is written for them.
-/

namespace ShaderMerge

open Include (Walk Event Document Guide OpenBlock Piece isMarker isProgramStart isBlockEnd)

namespace Shader

open Variant (Options Program)

/-- The filter of the conditional groups of a program block in front of its first line. -/
def blockFilter (s : Shader) (o : Options) (number : Nat) : Condition.Filter :=
  (Condition.Filter.new (Program.seed o number ((s.passes[number]?).getD .empty))).withUsage
    o.textureUsage

/-- The guide by which the writer expands includes. -/
def blockGuide (s : Shader) (o : Options) : Guide Condition.Filter where
  start := s.blockFilter o
  read f line := (f.feed line).filter
  isLive := Condition.Filter.isLive

end Shader

namespace Variant

/-- The lines of a piece as they are written, given the filters of the program blocks. -/
def pieceText (filters : Nat → Condition.Filter) : Piece → List String
  | .line text => [text]
  | .block number first lines last =>
    first :: ("#define " ++ variantSymbol) :: (filters number).text lines ++ last.toList

/-- The lines of a document as they are written. -/
def documentText (filters : Nat → Condition.Filter) (d : Document Condition.Filter) :
    List String :=
  d.finish.flatMap (pieceText filters)

/-- The lines outside of program blocks among some pieces. -/
def outerLines (pieces : List Piece) : List String :=
  pieces.filterMap fun
    | .line text => some text
    | .block _ _ _ _ => none

/-- Whether no line outside of braces names the shader, given the number of open braces. -/
def isUnnamed : Int → List Piece → Bool
  | _, [] => true
  | depth, .line text :: rest =>
    !(depth == 0 && Writer.isShaderLine text) && isUnnamed (depth + braces text) rest
  | depth, .block _ _ _ _ :: rest => isUnnamed depth rest

theorem isUnnamed_append (depth : Int) (first second : List Piece) :
    isUnnamed depth (first ++ second)
      = (isUnnamed depth first && isUnnamed (depth + balance (outerLines first)) second) := by
  induction first generalizing depth with
  | nil =>
    change isUnnamed depth second = isUnnamed (depth + 0) second
    rw [Int.add_zero]
  | cons piece rest ih =>
    cases piece with
    | line text =>
      change (_ && isUnnamed (depth + braces text) (rest ++ second))
        = ((_ && isUnnamed (depth + braces text) rest)
            && isUnnamed (depth + (braces text + balance (outerLines rest))) second)
      rw [ih, Bool.and_assoc, Int.add_assoc]
    | block number first lines last => exact ih depth

theorem balance_outerLines_concat (pieces : List Piece) (text : String) :
    balance (outerLines (pieces ++ [.line text])) = balance (outerLines pieces) + braces text := by
  rw [outerLines, List.filterMap_append, balance_append]
  change _ + (braces text + 0) = _
  rw [Int.add_zero]
  rfl

/-! ## The text of a document -/

section

variable {filters : Nat → Condition.Filter} {d : Document Condition.Filter}
  {G : Guide Condition.Filter} {line : String}

theorem documentText_of_none (h : d.opened = none) :
    documentText filters d = d.pieces.flatMap (pieceText filters) := by
  rw [documentText, Document.finish, h]
  exact congrArg _ (List.append_nil _)

theorem documentText_of_some {b : OpenBlock Condition.Filter} (h : d.opened = some b) :
    documentText filters d = d.pieces.flatMap (pieceText filters)
      ++ b.first :: ("#define " ++ variantSymbol) :: (filters b.number).text b.lines := by
  rw [documentText, Document.finish, h, List.flatMap_append]
  change _ ++ ((_ :: _ :: _ ++ []) ++ []) = _
  rw [List.append_nil, List.append_nil]

theorem keep_of_directive (h : Region.Control.ofLine line ≠ .plain) : d.keep G line = d := by
  rw [Document.keep, if_pos h]

theorem keep_of_none (hplain : Region.Control.ofLine line = .plain) (h : d.opened = none) :
    d.keep G line = { d with pieces := d.pieces ++ [.line line] } := by
  rw [Document.keep, if_neg (by simp [hplain]), h]

theorem keep_of_some (hplain : Region.Control.ofLine line = .plain)
    {b : OpenBlock Condition.Filter} (h : d.opened = some b) :
    d.keep G line = { d with
      opened := some { b with lines := b.lines ++ [line], state := G.read b.state line } } := by
  rw [Document.keep, if_neg (by simp [hplain]), h]

end

/-! ## The relation of the states -/

/-- A writer that writes what a document has collected. -/
structure Follows (r : Request) (w : Writer) (d : Document Condition.Filter) : Prop where
  regions : w.regions.IsBlank
  blocks : w.programs = d.blocks
  filter : w.program.map (·.filter) = d.opened.map (·.state)
  idle : ∀ p, w.program = some p → p.IsIdle
  state : ∀ b, d.opened = some b →
    b.state = (r.shader.blockFilter r.options b.number).after b.lines
  depth : w.outline.depth = balance (outerLines d.pieces)
  unnamed : w.outline.shaderLine = none → isUnnamed 0 d.pieces = true

/-- What becomes of the place of the shader line. -/
inductive Marks (w w' : Writer) (d d' : Document Condition.Filter) : Prop
  | same (shaderLine : w'.outline.shaderLine = w.outline.shaderLine)
  | set (text : String) (none : w.outline.shaderLine = none)
      (some : w'.outline.shaderLine = some w.main.size) (shader : Writer.isShaderLine text = true)
      (outside : w.outline.depth = 0) (opened : d.opened = .none)
      (pieces : d'.pieces = d.pieces ++ [.line text])
      (main : w.nested = [] → w'.main.toList = w.main.toList ++ [text])

/-- What a line of a file makes of a document. -/
def behindLine (r : Request) (d : Document Condition.Filter) (text : String) :
    Document Condition.Filter :=
  if isProgramStart text then d.start (r.shader.blockGuide r.options) text
  else if isBlockEnd text then d.stop (r.shader.blockGuide r.options) text
  else d.keep (r.shader.blockGuide r.options) text

/-- A step by which a writer and a document grow alike. -/
structure GrowsAlike (r : Request) (w w' : Writer) (d d' : Document Condition.Filter) : Prop where
  follows : Follows r w' d'
  lines : ∃ new, w'.lines = w.lines ++ new ∧
    documentText (r.shader.blockFilter r.options) d'
      = documentText (r.shader.blockFilter r.options) d ++ new
  pieces : d.pieces <+: d'.pieces
  marks : Marks w w' d d'

namespace Follows

variable {r : Request} {w w' : Writer} {d : Document Condition.Filter} {line : String}

theorem new {r : Request} (h : r.IsIdle) : Follows r (.new r) .empty where
  regions := ⟨h.regionValues_eq, rfl⟩
  blocks := rfl
  filter := rfl
  idle _ hp := by cases hp
  state _ hb := by cases hb
  depth := rfl
  unnamed _ := rfl

/-- The program block holds nothing back. -/
theorem held_eq (h : Follows r w d) : w.held = [] := by
  rw [Writer.held]
  cases hprogram : w.program with
  | none => rfl
  | some p =>
    change (p.pending.map (·.lines)).getD [] = []
    rw [(h.idle p hprogram).pending]
    rfl

theorem opened_of_none (h : Follows r w d) (hprogram : w.program = none) : d.opened = none := by
  have hfilter := h.filter
  rw [hprogram] at hfilter
  exact Option.map_eq_none_iff.1 hfilter.symm

theorem exists_opened (h : Follows r w d) {p : Program} (hprogram : w.program = some p) :
    ∃ b, d.opened = some b ∧ b.state = p.filter := by
  have hfilter := h.filter
  rw [hprogram] at hfilter
  exact Option.map_eq_some_iff.1 hfilter.symm

/-- Nothing that the relation speaks of depends on the lines that are put. -/
theorem put (h : Follows r w d) (lines : List String) : Follows r (w.put lines) d where
  regions := by rw [Writer.put_regions]; exact h.regions
  blocks := by rw [Writer.put_programs]; exact h.blocks
  filter := by rw [Writer.put_program]; exact h.filter
  idle p hp := h.idle p (Writer.put_program.symm.trans hp)
  state := h.state
  depth := by rw [Writer.put_outline]; exact h.depth
  unnamed hnone := h.unnamed (by rwa [Writer.put_outline] at hnone)

/-- The lines of a writer that puts some more. -/
theorem lines_put (h : Follows r w d) (lines : List String) :
    (w.put lines).lines = w.lines ++ lines := by
  rw [Writer.lines, Writer.lines, Writer.written_put, Writer.held_put, h.held_eq, List.append_nil,
    List.append_nil]

/-- An idle block writes where the writer puts. -/
theorem write_eq (h : Follows r w d) (lines : List String) : w.write lines = w.put lines := by
  cases hprogram : w.program with
  | none => exact Writer.write_of_none hprogram
  | some p =>
    rw [Writer.write_of_some hprogram, (h.idle p hprogram).write_eq, ← hprogram]

end Follows

/-! ## Lines outside of program blocks -/

section

variable {r : Request} {w w' : Writer} {d : Document Condition.Filter} {text : String}

theorem isShaderLine_of_head? (h : text.toList.head? ≠ some 'S') :
    Writer.isShaderLine text = false := by
  rw [Writer.isShaderLine]
  split
  · rename_i heq
    exfalso
    rw [Text.after?] at heq
    split at heq
    · rename_i hprefix
      obtain ⟨rest, hrest⟩ := List.isPrefixOf_iff_prefix.1 hprefix
      rw [← hrest] at h
      exact h rfl
    · cases heq
  · rfl

/-- A line outside of program blocks is put as it is read; what becomes of the outline says whether
it is the shader line. -/
theorem growsAlike_outer (h : Follows r w d) (hprogram : w.program = none)
    (hplain : Region.Control.ofLine text = .plain) {outline : Outline}
    {properties : List (PropertyKind × String)}
    (hw : w' = ({ w with outline, properties } : Writer).put [text])
    (hdepth : outline.depth = w.outline.depth + braces text)
    (hline : outline.shaderLine = w.outline.shaderLine ∧
        (w.outline.shaderLine = none → w.outline.depth = 0 → Writer.isShaderLine text = false) ∨
      w.outline.shaderLine = none ∧ outline.shaderLine = some w.main.size ∧
        Writer.isShaderLine text = true ∧ w.outline.depth = 0) :
    GrowsAlike r w w' d (d.keep (r.shader.blockGuide r.options) text) := by
  have hopened := h.opened_of_none hprogram
  have hfollows : Follows r ({ w with outline, properties } : Writer)
      { d with pieces := d.pieces ++ [.line text] } := by
    refine ⟨h.regions, h.blocks, h.filter, h.idle, h.state, ?_, ?_⟩
    · rw [balance_outerLines_concat, ← h.depth]
      exact hdepth
    · intro hnone
      obtain ⟨hsame, hshader⟩ | ⟨-, hsome, -⟩ := hline
      · have hbefore : w.outline.shaderLine = none := hsame.symm.trans hnone
        have hnamed : (w.outline.depth == 0 && Writer.isShaderLine text) = false := by
          cases hzero : w.outline.depth == 0 with
          | false => rfl
          | true => exact hshader hbefore (by simpa using hzero)
        rw [isUnnamed_append, h.unnamed hbefore, Int.zero_add, ← h.depth, isUnnamed, hnamed]
        rfl
      · rw [show outline.shaderLine = none from hnone] at hsome
        cases hsome
  rw [hw, keep_of_none hplain hopened]
  refine ⟨hfollows.put [text], ⟨[text], ?_, ?_⟩, List.prefix_append _ _, ?_⟩
  · rw [hfollows.lines_put]
    rfl
  · have hlonger : documentText (r.shader.blockFilter r.options)
          { d with pieces := d.pieces ++ [.line text] }
        = (d.pieces ++ [Piece.line text]).flatMap (pieceText (r.shader.blockFilter r.options)) :=
      documentText_of_none hopened
    rw [hlonger, documentText_of_none hopened, List.flatMap_append]
    rfl
  · obtain ⟨hsame, -⟩ | ⟨hnone, hsome, hshader, houtside⟩ := hline
    · exact .same (by rw [Writer.put_outline]; exact hsame)
    · refine .set text hnone (by rw [Writer.put_outline]; exact hsome) hshader houtside hopened rfl
        ?_
      intro hnested
      rw [@Writer.put_of_nil { w with outline, properties } _ hnested]
      simp

theorem braces_eq_one : braces "\x7b" = 1 := by decide

/-- The outline may be changed behind a line as well as in front of it. -/
theorem put_with_outline (w : Writer) (lines : List String) (outline : Outline) :
    ({ w.put lines with outline } : Writer) = ({ w with outline } : Writer).put lines := by
  simp only [Writer.put]
  split <;> rfl

theorem growsAlike_openBrace (h : Follows r w d) (hprogram : w.program = none) :
    GrowsAlike r w (w.openBrace "\x7b") d (d.keep (r.shader.blockGuide r.options) "\x7b") := by
  obtain ⟨outline, hw, hdepth, hline⟩ : ∃ outline : Outline,
      w.openBrace "\x7b" = ({ w with outline } : Writer).put ["\x7b"] ∧
        outline.depth = w.outline.depth + 1 ∧ outline.shaderLine = w.outline.shaderLine := by
    simp only [Writer.openBrace]
    split
    · split
      · exact ⟨_, put_with_outline _ _ _, rfl, rfl⟩
      · exact ⟨_, rfl, rfl, rfl⟩
    · split
      · exact ⟨_, put_with_outline _ _ _, rfl, rfl⟩
      · exact ⟨_, rfl, rfl, rfl⟩
  refine growsAlike_outer h hprogram (by decide) hw ?_ (.inl ⟨hline, fun _ _ => by decide⟩)
  rw [hdepth, braces_eq_one]

theorem growsAlike_closeBrace (hr : r.IsIdle) (h : Follows r w d) (hprogram : w.program = none)
    (htext : text = "\x7d" ∨ text = "\x7d;") :
    GrowsAlike r w (w.closeBrace r text) d (d.keep (r.shader.blockGuide r.options) text) := by
  have hadded : ∀ w : Writer, w.putAdded r = w := by
    intro w
    rw [Writer.putAdded, hr.addedProperties_eq]
    simp
  obtain ⟨outline, hw, hdepth, hline⟩ : ∃ outline : Outline,
      w.closeBrace r text = ({ w with outline } : Writer).put [text] ∧
        outline.depth = w.outline.depth - 1 ∧ outline.shaderLine = w.outline.shaderLine := by
    simp only [Writer.closeBrace, hadded]
    split
    · exact ⟨_, rfl, rfl, rfl⟩
    · exact ⟨_, rfl, rfl, rfl⟩
  have hbraces : braces text = -1 := by rcases htext with rfl | rfl <;> decide
  have hplain : Region.Control.ofLine text = .plain := by rcases htext with rfl | rfl <;> decide
  have hshader : Writer.isShaderLine text = false := by rcases htext with rfl | rfl <;> decide
  refine growsAlike_outer h hprogram hplain hw ?_ (.inl ⟨hline, fun _ _ => hshader⟩)
  rw [hdepth, hbraces]
  rfl

theorem growsAlike_outerStatement (hr : r.IsIdle) (h : Follows r w d) (hprogram : w.program = none)
    (hplain : Region.Control.ofLine text = .plain) (hbraces : braces text = 0) :
    GrowsAlike r w (w.outerStatement r text) d
      (d.keep (r.shader.blockGuide r.options) text) := by
  obtain ⟨outline, properties, hw, hdepth, hline⟩ : ∃ (outline : Outline) (properties : _),
      w.outerStatement r text = ({ w with outline, properties } : Writer).put [text] ∧
        outline.depth = w.outline.depth ∧
        outline.shaderLine = if w.outline.shaderLine.isNone && w.outline.depth == 0 &&
          Writer.isShaderLine text then some w.main.size else w.outline.shaderLine := by
    simp only [Writer.outerStatement, hr.command_eq, hr.propertyLine_eq]
    split
    · split
      · exact ⟨_, _, rfl, rfl, rfl⟩
      · exact ⟨_, _, rfl, rfl, rfl⟩
    · split
      · exact ⟨_, _, rfl, rfl, rfl⟩
      · exact ⟨_, _, rfl, rfl, rfl⟩
  refine growsAlike_outer h hprogram hplain hw (by rw [hdepth, hbraces, Int.add_zero]) ?_
  cases hnamed : w.outline.shaderLine.isNone && w.outline.depth == 0 &&
      Writer.isShaderLine text with
  | true =>
    rw [hnamed, if_pos rfl] at hline
    rw [Bool.and_eq_true, Bool.and_eq_true, Option.isNone_iff_eq_none, beq_iff_eq] at hnamed
    exact .inr ⟨hnamed.1.1, hline, hnamed.2, hnamed.1.2⟩
  | false =>
    rw [hnamed, if_neg Bool.false_ne_true] at hline
    refine .inl ⟨hline, fun hnone hzero => ?_⟩
    rw [hnone, hzero] at hnamed
    exact hnamed

/-- A program block starts with its first line and the definition of the symbol. -/
theorem growsAlike_startProgram (hr : r.IsIdle) (h : Follows r w d) (hprogram : w.program = none)
    (hread : w.startProgram r text = .ok w') :
    GrowsAlike r w w' d (d.start (r.shader.blockGuide r.options) text) := by
  have hopened := h.opened_of_none hprogram
  obtain ⟨plan, hplan, rfl⟩ := Writer.startProgram_eq hread
  have hstart : d.start (r.shader.blockGuide r.options) text
      = { d with
          opened := some ⟨d.blocks, text, [], r.shader.blockFilter r.options d.blocks⟩
          blocks := d.blocks + 1 } := by
    rw [Document.start, hopened]
    rfl
  rw [hstart, hr.prelude_eq hplan]
  refine ⟨?_, ⟨[text, "#define " ++ variantSymbol], ?_, ?_⟩, List.prefix_refl _, .same ?_⟩
  · refine ⟨?_, ?_, ?_, ?_, ?_, ?_, ?_⟩
    · exact Writer.put_regions.symm ▸ h.regions
    · exact congrArg (· + 1) h.blocks
    · rw [← h.blocks]
      rfl
    · intro p hp
      cases hp
      exact .of_new hr _ hplan
    · intro b hb
      cases hb
      rfl
    · exact Writer.put_outline.symm ▸ h.depth
    · intro hnone
      exact h.unnamed (Writer.put_outline (w := w) ▸ hnone)
  · have hlines := h.lines_put [text, "#define " ++ variantSymbol]
    rw [Writer.lines, Writer.held_put, h.held_eq, List.append_nil] at hlines
    exact (List.append_nil _).trans hlines
  · rw [documentText_of_none hopened]
    exact @documentText_of_some (r.shader.blockFilter r.options)
      { d with
        opened := some ⟨d.blocks, text, [], r.shader.blockFilter r.options d.blocks⟩
        blocks := d.blocks + 1 } _ rfl
  · exact congrArg Outline.shaderLine Writer.put_outline

theorem growsAlike_outerLine (hr : r.IsIdle) (h : Follows r w d) (hprogram : w.program = none)
    (hplain : Region.Control.ofLine text = .plain) (hread : w.outerLine r text = .ok w') :
    GrowsAlike r w w' d (behindLine r d text) := by
  -- Without an open block the end of one is a line like any other.
  have hstop : d.stop (r.shader.blockGuide r.options) text
      = d.keep (r.shader.blockGuide r.options) text := by
    rw [Document.stop, h.opened_of_none hprogram]
  rw [behindLine, hstop, ite_self]
  rw [Writer.outerLine] at hread
  split at hread
  · rename_i hstart
    rw [if_pos hstart]
    exact growsAlike_startProgram hr h hprogram hread
  · rename_i hstart
    rw [if_neg hstart]
    split at hread
    · rename_i hopen
      cases hread
      rw [hopen]
      exact growsAlike_openBrace h hprogram
    · rename_i hopen
      split at hread
      · rename_i hclose
        cases hread
        rw [Bool.or_eq_true, decide_eq_true_eq, decide_eq_true_eq] at hclose
        exact growsAlike_closeBrace hr h hprogram hclose
      · rename_i hclose
        cases hread
        exact growsAlike_outerStatement hr h hprogram hplain
          (by rw [braces, if_neg hopen, if_neg hclose])

end

/-! ## Lines of a program block -/

section

variable {r : Request} {w w' : Writer} {d : Document Condition.Filter} {p p' : Program}
  {text : String} {lines : List String}

/-- A line of a program block becomes what the filter of the block writes for it. -/
theorem growsAlike_program (h : Follows r w d) (hprogram : w.program = some p)
    (hplain : Region.Control.ofLine text = .plain) (hidle : p'.IsIdle)
    (hfilter : p'.filter = (p.filter.feed text).filter)
    (hlines : lines = (p.filter.feed text).text text) :
    GrowsAlike r w (({ w with program := some p' } : Writer).put lines) d
      (d.keep (r.shader.blockGuide r.options) text) := by
  obtain ⟨b, hopened, hstate⟩ := h.exists_opened hprogram
  have hafter : ((r.shader.blockFilter r.options) b.number).after b.lines = p.filter :=
    (h.state b hopened).symm.trans hstate
  rw [keep_of_some hplain hopened]
  have hfollows : Follows r ({ w with program := some p' } : Writer) { d with
      opened := some { b with lines := b.lines ++ [text], state := (b.state.feed text).filter } } := by
    refine ⟨h.regions, h.blocks, ?_, ?_, ?_, h.depth, h.unnamed⟩
    · rw [hstate]
      exact congrArg some hfilter
    · intro q hq
      cases hq
      exact hidle
    · intro b' hb'
      cases hb'
      rw [Condition.Filter.after_append, hafter, hstate]
      rfl
  refine ⟨hfollows.put lines, ⟨lines, ?_, ?_⟩, List.prefix_refl _, .same ?_⟩
  · have hnone : ({ w with program := some p' } : Writer).lines = w.lines := by
      rw [Writer.lines, Writer.lines, hfollows.held_eq, h.held_eq]
      rfl
    rw [hfollows.lines_put, hnone]
  · have hlonger := @documentText_of_some (r.shader.blockFilter r.options) { d with
      opened := some { b with lines := b.lines ++ [text], state := (b.state.feed text).filter } } _ rfl
    refine hlonger.trans ?_
    rw [documentText_of_some hopened, Condition.Filter.text_concat, hafter, hlines]
    simp only [List.append_assoc, List.cons_append]
  · exact congrArg Outline.shaderLine Writer.put_outline

/-- The document behind a program block that has ended. -/
theorem Follows.ended (h : Follows r w d) (number : Nat) (first : String)
    (last : Option String) (reports : List String) :
    Follows r ({ w with program := none, reports } : Writer)
      { d with pieces := d.pieces ++ [.block number first lines last], opened := none } where
  regions := h.regions
  blocks := h.blocks
  filter := rfl
  idle _ hq := by cases hq
  state _ hb := by cases hb
  depth := by
    have houter : outerLines (d.pieces ++ [.block number first lines last])
        = outerLines d.pieces := by
      rw [outerLines, List.filterMap_append]
      exact List.append_nil _
    rw [houter]
    exact h.depth
  unnamed hnone := by
    rw [isUnnamed_append, h.unnamed hnone]
    rfl

theorem growsAlike_endProgram (h : Follows r w d) (hprogram : w.program = some p)
    (hread : w.endProgram p (some text) = .ok w') :
    GrowsAlike r w w' d (d.stop (r.shader.blockGuide r.options) text) := by
  obtain ⟨b, hopened, -⟩ := h.exists_opened hprogram
  have hlines := Writer.lines_endProgram hprogram hread
  obtain ⟨held, report, -, rfl⟩ := Writer.endProgram_eq hread
  have hstop : d.stop (r.shader.blockGuide r.options) text
      = { d with
          pieces := d.pieces ++ [.block b.number b.first b.lines (some text)], opened := none } := by
    rw [Document.stop, hopened]
  rw [hstop]
  have hfollows := @Follows.ended r w d b.lines h b.number b.first (some text) (w.reports ++ report)
  refine ⟨hfollows.put _, ⟨[text], hlines, ?_⟩, List.prefix_append _ _, .same ?_⟩
  · rw [documentText_of_some hopened, documentText_of_none rfl, List.flatMap_append,
      List.append_assoc]
    refine congrArg _ ?_
    simp [pieceText]
  · exact congrArg Outline.shaderLine Writer.put_outline

theorem growsAlike_programLine (hr : r.IsIdle) (h : Follows r w d) (hprogram : w.program = some p)
    (hplain : Region.Control.ofLine text = .plain) (hread : w.programLine r p text = .ok w') :
    GrowsAlike r w w' d (behindLine r d text) := by
  obtain ⟨b, hopened, -⟩ := h.exists_opened hprogram
  -- In an open block the start of another one is a line like any other.
  have hstart : d.start (r.shader.blockGuide r.options) text
      = d.keep (r.shader.blockGuide r.options) text := by
    rw [Document.start, hopened]
  rw [behindLine, hstart]
  cases hend : isBlockEnd text with
  | true =>
    have hnot : ¬ isProgramStart text = true := by
      intro hbegin
      rw [Include.not_isBlockEnd_of_isProgramStart hbegin] at hend
      cases hend
    rw [if_neg hnot, if_pos rfl]
    rw [Writer.programLine, if_pos hend] at hread
    exact growsAlike_endProgram h hprogram hread
  | false =>
    rw [if_neg Bool.false_ne_true, ite_self]
    obtain ⟨p', lines, hline, rfl⟩ := Writer.programLine_eq hend hread
    obtain ⟨hidle, hfilter, hlines⟩ :=
      Program.line_of_isIdle hr.substitution (h.idle p hprogram) hline
    exact growsAlike_program h hprogram hplain hidle hfilter hlines

end

/-! ## Includes -/

section

variable {r : Request} {w w' : Writer} {d : Document Condition.Filter} {directive : String}
  {target : Option String}

/-- What the filter of a program block does with an include directive. -/
theorem feed_of_target? (f : Condition.Filter) (h : (Include.target? directive).isSome = true) :
    f.feed directive = f.pass := by
  rw [Condition.Filter.feed, control_of_target? h]

theorem head?_of_target? (h : (Include.target? directive).isSome = true) :
    directive.toList.head? = some '#' := by
  obtain ⟨keyword, rest, hparts, -⟩ := keyword_of_target? h
  rw [Directive.ofLine?] at hparts
  split at hparts
  · rename_i heq
    rw [heq]
    rfl
  · cases hparts

theorem GrowsAlike.refl (h : Follows r w d) : GrowsAlike r w w d d :=
  ⟨h, ⟨[], by simp, by simp⟩, List.prefix_refl _, .same rfl⟩

/-- When a chunk starts, nothing is written. -/
theorem GrowsAlike.push {d' : Document Condition.Filter} (h : GrowsAlike r w w' d d') :
    GrowsAlike r w { w' with nested := #[] :: w'.nested } d d' where
  follows := ⟨h.follows.regions, h.follows.blocks, h.follows.filter, h.follows.idle,
    h.follows.state, h.follows.depth, h.follows.unnamed⟩
  lines := by
    rw [Writer.lines_push]
    exact h.lines
  pieces := h.pieces
  marks := by
    obtain hsame | ⟨text, hnone, hsome, hshader, houtside, hopened, hpieces, hmain⟩ := h.marks
    · exact .same hsame
    · exact .set text hnone hsome hshader houtside hopened hpieces hmain

/-- An include is expanded by the writer and the document, or by neither of them, and grows them
alike. -/
structure ExpandsAlike (r : Request) (w : Writer) (d : Document Condition.Filter)
    (directive : String) (target : Option String) : Prop where
  expands : (w.liveInclude directive target).2
    = (d.isLive (r.shader.blockGuide r.options) && target.isSome)
  grows : GrowsAlike r w (w.liveInclude directive target).1 d
    (if d.isLive (r.shader.blockGuide r.options) && target.isSome then d
      else d.keep (r.shader.blockGuide r.options) directive)

/-- Outside of program blocks an include is kept. -/
theorem expandsAlike_outer (h : Follows r w d) (hprogram : w.program = none)
    (hdirective : (Include.target? directive).isSome = true) :
    ExpandsAlike r w d directive target := by
  have hlive : d.isLive (r.shader.blockGuide r.options) = false := by
    rw [Document.isLive, h.opened_of_none hprogram]
    rfl
  have hwrite : w.liveInclude directive target = (w.put [directive], false) := by
    rw [Writer.liveInclude, hprogram]
  have hbraces := braces_eq_zero (isStructural_of_target? hdirective)
  have hshader : Writer.isShaderLine directive = false :=
    isShaderLine_of_head? (by rw [head?_of_target? hdirective]; decide)
  refine ⟨?_, ?_⟩
  · rw [hwrite, hlive]
    rfl
  · rw [hwrite, hlive]
    exact @growsAlike_outer r w _ d directive h hprogram (regionControl_of_target? hdirective)
      w.outline w.properties rfl (by rw [hbraces, Int.add_zero]) (.inl ⟨rfl, fun _ _ => hshader⟩)

/-- In live text of a program block an include is expanded if its file is there. -/
theorem expandsAlike_live (h : Follows r w d) {p : Program} (hprogram : w.program = some p)
    (hdirective : (Include.target? directive).isSome = true) (hpass : p.filter.isLive = true)
    (hlive : d.isLive (r.shader.blockGuide r.options) = true) :
    ExpandsAlike r w d directive target := by
  have hidle := h.idle p hprogram
  have hfeed := feed_of_target? p.filter hdirective
  rw [Condition.Filter.pass, if_pos hpass] at hfeed
  have hread : p.feed directive = (p, [], .live) := by
    rw [Program.feed, hfeed, hidle.write_eq]
  have hsame : ({ w with program := some p } : Writer) = w := by rw [← hprogram]
  cases target with
  | none =>
    have hwrite : w.liveInclude directive none = (w.put [directive], false) := by
      rw [Writer.liveInclude, hprogram]
      simp only [hread, hsame, Writer.put_nil]
      rw [h.write_eq]
    have hgrows := growsAlike_program h hprogram (regionControl_of_target? hdirective) hidle
      (by rw [hfeed]) rfl
    rw [hfeed, hsame] at hgrows
    refine ⟨?_, ?_⟩
    · rw [hwrite, hlive]
      rfl
    · rw [hwrite, hlive]
      exact hgrows
  | some target =>
    have hwrite : w.liveInclude directive (some target) = (w, true) := by
      rw [Writer.liveInclude, hprogram]
      simp only [hread, hsame, Writer.put_nil]
    refine ⟨?_, ?_⟩
    · rw [hwrite, hlive]
      rfl
    · rw [hwrite, hlive]
      exact .refl h

/-- In a dead arm of a program block an include is skipped. -/
theorem expandsAlike_dead (h : Follows r w d) {p : Program} (hprogram : w.program = some p)
    (hdirective : (Include.target? directive).isSome = true) (hpass : p.filter.isLive = false)
    (hlive : d.isLive (r.shader.blockGuide r.options) = false) :
    ExpandsAlike r w d directive target := by
  have hidle := h.idle p hprogram
  have hfeed := feed_of_target? p.filter hdirective
  rw [Condition.Filter.pass, if_neg (by simp [hpass])] at hfeed
  have hidle' : ({ p with filter := (p.filter.feed directive).filter } : Program).IsIdle :=
    ⟨hidle.entries, hidle.pending, hidle.body, hidle.deferred⟩
  have hread : p.feed directive
      = ({ p with filter := (p.filter.feed directive).filter }, [], .consumed) := by
    rw [Program.feed, hidle'.write_eq, hfeed]
  have hwrite : w.liveInclude directive target = (({ w with
      program := some { p with filter := (p.filter.feed directive).filter } } : Writer).put [],
      false) := by
    rw [Writer.liveInclude, hprogram]
    simp only [hread]
  refine ⟨?_, ?_⟩
  · rw [hwrite, hlive]
    rfl
  · rw [hwrite, hlive]
    refine growsAlike_program h hprogram (regionControl_of_target? hdirective) hidle' rfl ?_
    rw [hfeed]
    rfl

/-- The writer expands an include where the document has live text, and else keeps the directive. -/
theorem expandsAlike (h : Follows r w d)
    (hdirective : (Include.target? directive).isSome = true) :
    ExpandsAlike r w d directive target := by
  cases hprogram : w.program with
  | none => exact expandsAlike_outer h hprogram hdirective
  | some p =>
    obtain ⟨b, hopened, hstate⟩ := h.exists_opened hprogram
    have hlive : d.isLive (r.shader.blockGuide r.options) = p.filter.isLive := by
      rw [Document.isLive, hopened, Option.any_some, hstate]
      rfl
    cases hpass : p.filter.isLive with
    | true => exact expandsAlike_live h hprogram hdirective hpass (hlive.trans hpass)
    | false => exact expandsAlike_dead h hprogram hdirective hpass (hlive.trans hpass)

/-! ## Events -/

variable {walk walk' : Walk} {event : Event}

theorem growsAlike_line (hr : r.IsIdle) (h : Follows r w d) {file text : String}
    (hread : w.line r text = .ok w') :
    ∃ d', d.step r.shader.sources (r.shader.blockGuide r.options) walk (.line file text)
        = .ok (d', walk) ∧ GrowsAlike r w w' d d' := by
  have hstep : d.step r.shader.sources (r.shader.blockGuide r.options) walk (.line file text)
      = .ok (behindLine r d text, walk) := by
    rw [Document.step, behindLine]
    split
    · rfl
    · split <;> rfl
  obtain ⟨hblank, hwritten, hlive⟩ := h.regions.feed text
  by_cases hplain : Region.Control.ofLine text = .plain
  · rcases Writer.line_of_live (hlive.2 hplain) hread with ⟨p, hprogram, hread⟩ | ⟨hprogram, hread⟩
    · exact ⟨_, hstep, growsAlike_programLine hr h hprogram hplain hread⟩
    · exact ⟨_, hstep, growsAlike_outerLine hr h hprogram hplain hread⟩
  · -- The directive of a region is no marker, and nothing is written for it.
    have hmarker : isMarker text = false := by
      rw [Bool.eq_false_iff]
      exact fun hmarker => hplain (ofLine_marker hmarker)
    rw [isMarker, Bool.or_eq_false_iff] at hmarker
    rw [behindLine, if_neg (by simp [hmarker.1]), if_neg (by simp [hmarker.2]),
      keep_of_directive hplain] at hstep
    have hfeed : (w.regions.feed text).feed = .consumed := by
      cases hfeed : (w.regions.feed text).feed with
      | consumed => rfl
      | live => exact absurd (hlive.1 hfeed) hplain
    have hw : w' = { w with regions := (w.regions.feed text).filter } := by
      rw [Writer.line, Writer.feedRegions, hwritten, Writer.write_nil, hfeed] at hread
      cases hread
      rfl
    refine ⟨d, hstep, ?_⟩
    rw [hw]
    refine ⟨⟨hblank, h.blocks, h.filter, h.idle, h.state, h.depth, h.unnamed⟩, ⟨[], ?_, ?_⟩,
      List.prefix_refl _, .same rfl⟩
    · exact (List.append_nil _).symm
    · exact (List.append_nil _).symm

theorem growsAlike_include (h : Follows r w d) {file : String}
    (hdirective : (Include.target? directive).isSome = true)
    (hread : Writer.event r w walk (.include_ file directive target) = .ok (w', walk')) :
    ∃ d', d.step r.shader.sources (r.shader.blockGuide r.options) walk
        (.include_ file directive target) = .ok (d', walk') ∧ GrowsAlike r w w' d d' := by
  obtain ⟨hexpands, hgrows⟩ := @expandsAlike r w d directive target h hdirective
  rw [Document.step]
  -- Both ask the same walk whether the file has been expanded before.
  cases Writer.includes_of_event hread with
  | consumed feed =>
    rw [(h.regions.feed directive).2.2.2 (regionControl_of_target? hdirective)] at feed
    cases feed
  | kept feed expands =>
    rw [← hexpands, expands] at hgrows ⊢
    exact ⟨_, rfl, hgrows⟩
  | repeated feed expands descends =>
    rw [← hexpands, expands] at hgrows ⊢
    exact ⟨d, rfl, hgrows⟩
  | opened feed expands descends =>
    rw [← hexpands, expands] at hgrows ⊢
    exact ⟨d, rfl, hgrows.push⟩

/-- **A writer and a document in step.**  An event other than the end of an included file is read by
both alike, and the walk goes on in the same way. -/
theorem inStep_event (hr : r.IsIdle) (h : Follows r w d)
    (hnext : ∀ file directive target, event = .include_ file directive target →
      (Include.target? directive).isSome = true)
    (hend : ∀ directive target, event ≠ .endInclude directive target)
    (hread : Writer.event r w walk event = .ok (w', walk')) :
    ∃ d', d.step r.shader.sources (r.shader.blockGuide r.options) walk event = .ok (d', walk') ∧
      GrowsAlike r w w' d d' := by
  cases event with
  | line file text =>
    obtain ⟨w₁, hline, heq⟩ := exists_ok_of_map hread
    cases heq
    exact growsAlike_line hr h hline
  | include_ file directive target =>
    exact growsAlike_include h (hnext file directive target rfl) hread
  | endInclude directive target => exact absurd rfl (hend directive target)

/-- The end of an included file changes the chunks only, and the lines they are written to. -/
theorem Follows.endInclude (h : Follows r w d) (target : String) :
    Follows r (w.endInclude target) d := by
  cases hnested : w.nested with
  | nil =>
    rw [Writer.endInclude, hnested]
    exact h
  | cons lines outer =>
    rw [Sound.endInclude_eq hnested]
    have hpopped : Follows r
        { w with
          nested := outer, chunks := Sound.addChunk w.chunks (chunkOf target lines.toList) } d :=
      ⟨h.regions, h.blocks, h.filter, h.idle, h.state, h.depth, h.unnamed⟩
    rw [hpopped.write_eq]
    exact hpopped.put _

end

end Variant

end ShaderMerge
