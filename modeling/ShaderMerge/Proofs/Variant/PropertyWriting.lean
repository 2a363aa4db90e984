import ShaderMerge.Proofs.Variant.PropertyBlock
import ShaderMerge.Proofs.Variant.Outline

/-!
# The lists of the properties while a variant is written

`Writer.Lists` relates a writer to the lines that it has read.  The main file and those lines stand at
the same position, which the outline of the writer describes (`Writer.Stands`).  The lists hold what
the lines in the block of the main file declare (`Fills`), and the places that the writer remembers
are the ones at which the shader can be named and a block can be put in (`Places`).

Program blocks, notes and directives only make the main file longer (`Lists.grow`); a brace and a
statement have a lemma each.
-/

namespace ShaderMerge.Variant

open Include (isProgramStart isBlockEnd)
open Position (start)

/-- Whether the block of the properties has been closed. -/
def Position.isClosed (p : Position) : Bool := decide (0 < p.blocks) && p.block.isNone

namespace Position

variable {p : Position} {lines : List String} {line : String}

/-- Where no block has been opened, none is open. -/
theorem block_of_blocks (h : (start.after lines).blocks = 0) : (start.after lines).block = none :=
  (after_of_unopened (p := start) rfl h 0).1

theorem listed_of_blocks (h : (start.after lines).blocks = 0) : start.listed lines = [] :=
  (after_of_unopened (p := start) rfl h 0).2.1

theorem after_concat (p : Position) (lines : List String) (line : String) :
    p.after (lines ++ [line]) = (p.after lines).step line := after_append p lines [line]

theorem listed_concat (p : Position) (lines : List String) (line : String) :
    p.listed (lines ++ [line])
      = p.listed lines ++ if (p.after lines).lists line then [line] else [] := by
  rw [listed_append, listed, listed]

theorem lists_of_not_isStatement (h : isStatement line = false) : p.lists line = false := by
  rw [lists, h, Bool.and_false, Bool.false_and]

theorem isClosed_openBrace (h : p.openBrace.blocks ≤ 1) : p.openBrace.isClosed = p.isClosed := by
  rw [openBrace] at h ⊢
  split
  · rename_i hannounced
    rw [if_pos hannounced] at h
    have hzero : p.blocks = 0 := by
      dsimp only at h
      omega
    rw [isClosed, isClosed, hzero]
    exact Bool.and_false _
  · rfl

end Position

/-! ## Places in the main file -/

/-- A statement outside of all braces. -/
structure IsNamedAt (lines : List String) (place : Nat) : Prop where
  statement : ∃ line, lines[place]? = some line ∧ isStatement line = true
  inProgram : (start.after (lines.take place)).inProgram = false
  depth : (start.after (lines.take place)).depth = 0
  block : (start.after (lines.take place)).block = none

theorem IsNamedAt.lt {lines : List String} {place : Nat} (h : IsNamedAt lines place) :
    place < lines.length := by
  obtain ⟨line, hline, -⟩ := h.statement
  exact (List.getElem?_eq_some_iff.1 hline).1

/-- Only the line at the place and those in front of it count. -/
theorem IsNamedAt.congr {lines lines' : List String} {place : Nat} (h : IsNamedAt lines place)
    (htake : lines'.take place = lines.take place) (hline : lines'[place]? = lines[place]?) :
    IsNamedAt lines' place where
  statement := by
    rw [hline]
    exact h.statement
  inProgram := by
    rw [htake]
    exact h.inProgram
  depth := by
    rw [htake]
    exact h.depth
  block := by
    rw [htake]
    exact h.block

theorem IsNamedAt.append {lines : List String} {place : Nat} (h : IsNamedAt lines place)
    (more : List String) : IsNamedAt (lines ++ more) place :=
  h.congr (List.take_append_of_le_length (Nat.le_of_lt h.lt)) (List.getElem?_append_left h.lt)

/-- The place behind the first brace, if no block has been opened in front of it. -/
structure IsOpenedAt (lines : List String) (place : Nat) (blocks : Nat) : Prop where
  le : place ≤ lines.length
  after : blocks = 0 → start.after (lines.take place) = ⟨false, 1, false, none, 0⟩

theorem IsOpenedAt.append {lines : List String} {place blocks blocks' : Nat}
    (h : IsOpenedAt lines place blocks) (hblocks : blocks ≤ blocks') (more : List String) :
    IsOpenedAt (lines ++ more) place blocks' where
  le := by
    rw [List.length_append]
    exact Nat.le_add_right_of_le h.le
  after hzero := by
    rw [List.take_append_of_le_length h.le]
    exact h.after (by omega)

/-- What is known of the places that an outline remembers. -/
structure Places (main : List String) (o : Outline) (p : Position) : Prop where
  unopened : o.shaderBody = none → p.announced = false ∧ p.depth ≤ 0 ∧ p.blocks = 0
  named : ∀ place, o.shaderLine = some place → IsNamedAt main place
  opened : ∀ place, o.shaderBody = some place →
    IsOpenedAt main place p.blocks ∧ ∀ name, o.shaderLine = some name → name < place

namespace Places

variable {main : List String} {o o' : Outline} {p q : Position}

/-- The main file gets longer, and no place is new. -/
theorem append (h : Places main o p) (more : List String) (hline : o'.shaderLine = o.shaderLine)
    (hbody : o'.shaderBody = o.shaderBody) (hblocks : p.blocks ≤ q.blocks)
    (hunopened : o.shaderBody = none → q.announced = false ∧ q.depth ≤ 0 ∧ q.blocks = 0) :
    Places (main ++ more) o' q where
  unopened hnone := hunopened (hbody ▸ hnone)
  named place hplace := (h.named place (hline ▸ hplace)).append more
  opened place hplace := by
    obtain ⟨hopened, hname⟩ := h.opened place (hbody ▸ hplace)
    exact ⟨hopened.append hblocks more, fun name hname' => hname name (hline ▸ hname')⟩

/-- The first brace of the shader. -/
theorem openBody (h : Places main o p) (hmain : start.after main = p) (hp : p.inProgram = false)
    (hdepth : p.depth = 0) (hline : o'.shaderLine = o.shaderLine) (hnone : o.shaderBody = none)
    (hbody : o'.shaderBody = some (main.length + 1)) :
    Places (main ++ ["\x7b"]) o' p.openBrace := by
  obtain ⟨hannounced, -, hblocks⟩ := h.unopened hnone
  have hblock := Position.block_of_blocks (hmain ▸ hblocks)
  have hlength : (main ++ ["\x7b"]).length = main.length + 1 := by simp
  refine ⟨?_, ?_, ?_⟩
  · intro hnone'
    rw [hbody] at hnone'
    cases hnone'
  · exact fun place hplace => (h.named place (hline ▸ hplace)).append _
  · intro place hplace
    rw [hbody] at hplace
    cases hplace
    refine ⟨⟨by rw [hlength], fun _ => ?_⟩, ?_⟩
    -- Nothing has been announced in front of the first brace, so it opens no block.
    · rw [← hlength, List.take_length, Position.after_concat, hmain, Position.step_openBrace hp,
        Position.openBrace, hannounced, if_neg Bool.false_ne_true]
      rw [hmain] at hblock
      obtain ⟨inProgram, depth, announced, block, blocks⟩ := p
      cases hp
      cases hdepth
      cases hannounced
      cases hblocks
      cases hblock
      rfl
    · intro name hname
      exact Nat.lt_succ_of_lt (h.named name (hline ▸ hname)).lt

/-- The line that names the shader, in front of its first brace. -/
theorem nameShader {text : String} (h : Places main o p) (hmain : start.after main = p)
    (hp : p.inProgram = false) (hdepth : p.depth = 0) (htext : isStatement text = true)
    (hline : o'.shaderLine = some main.length) (hbody : o'.shaderBody = o.shaderBody)
    (hnone : o.shaderBody = none) (hblocks : q.blocks = p.blocks) (hannounced : q.announced = false)
    (hdepth' : q.depth = p.depth) : Places (main ++ [text]) o' q := by
  obtain ⟨-, -, hzero⟩ := h.unopened hnone
  have htake : (main ++ [text]).take main.length = main := List.take_left
  refine ⟨?_, ?_, ?_⟩
  · intro _
    exact ⟨hannounced, by omega, by omega⟩
  · intro place hplace
    rw [hline] at hplace
    cases hplace
    refine ⟨⟨text, ?_, htext⟩, ?_, ?_, ?_⟩
    · rw [List.getElem?_append_right (Nat.le_refl _)]
      simp
    · rw [htake, hmain, hp]
    · rw [htake, hmain, hdepth]
    · rw [htake]
      exact Position.block_of_blocks (hmain ▸ hzero)
  · intro place hplace
    rw [hbody, hnone] at hplace
    cases hplace

end Places

/-! ## What the main file declares -/

/-- Lines that may start or end a program block, but count for nothing else. -/
def Switches (p : Position) (lines : List String) (inProgram : Bool) : Prop :=
  p.after lines = { p with inProgram } ∧ p.listed lines = []

theorem switches_of_skips {p : Position} {lines : List String} {inProgram : Bool} (h : p.Skips lines)
    (hp : p.inProgram = inProgram) : Switches p lines inProgram := by
  refine ⟨?_, h.2⟩
  rw [h.1, ← hp]

/-- What is on the lists, for the live lines that a main file has been written from. -/
structure Fills (r : Request) (main : List String) (properties : List (PropertyKind × String))
    (source : List String) : Prop where
  after : start.after main = start.after source
  eq_declared : properties = (start.listed main).flatMap declared
  listed : (start.after source).blocks ≤ 1 →
    properties = (start.listed source).flatMap (fun line => (r.propertyLine line).1)
      ++ if (start.after source).isClosed then r.addedProperties.map AddedProperty.entry else []

namespace Fills

variable {r : Request} {main source out live : List String} {line : String}
  {properties : List (PropertyKind × String)}

theorem turn {inProgram : Bool} (h : Fills r main properties source)
    (hout : Switches (start.after source) out inProgram)
    (hlive : Switches (start.after source) live inProgram) :
    Fills r (main ++ out) properties (source ++ live) := by
  obtain ⟨houtAfter, houtListed⟩ := hout
  obtain ⟨hliveAfter, hliveListed⟩ := hlive
  refine ⟨?_, ?_, ?_⟩
  · rw [Position.after_append, Position.after_append, h.after, houtAfter, hliveAfter]
  · rw [Position.listed_append, h.after, houtListed, List.append_nil]
    exact h.eq_declared
  · rw [Position.listed_append, hliveListed, List.append_nil, Position.after_append, hliveAfter]
    exact h.listed

theorem openBrace (h : Fills r main properties source)
    (hp : (start.after source).inProgram = false) :
    Fills r (main ++ ["\x7b"]) properties (source ++ ["\x7b"]) := by
  have hlists : ∀ p : Position, p.lists "\x7b" = false :=
    fun p => Position.lists_of_not_isStatement (by decide)
  refine ⟨?_, ?_, ?_⟩
  · rw [Position.after_concat, Position.after_concat, h.after]
  · rw [Position.listed_concat, hlists, if_neg Bool.false_ne_true, List.append_nil]
    exact h.eq_declared
  · rw [Position.listed_concat, hlists, if_neg Bool.false_ne_true, List.append_nil,
      Position.after_concat, Position.step_openBrace hp]
    intro hblocks
    rw [Position.isClosed_openBrace hblocks]
    apply h.listed
    have hle := Position.blocks_le_step (start.after source) "\x7b"
    rw [Position.step_openBrace hp] at hle
    exact Nat.le_trans hle hblocks

/-- A brace that closes the block comes behind what the variant adds. -/
theorem closeBrace (h : Fills r main properties source)
    (hp : (start.after source).inProgram = false)
    (hannounced : (start.after source).announced = false) (hline : line = "\x7d" ∨ line = "\x7d;") :
    Fills r
      (main ++ ((if (start.after source).block = some (start.after source).depth then
        r.addedProperties.map AddedProperty.line else []) ++ [line]))
      (properties ++ if (start.after source).block = some (start.after source).depth then
        r.addedProperties.map AddedProperty.entry else [])
      (source ++ [line]) := by
  have hlists : ∀ p : Position, p.lists line = false := by
    intro p
    apply Position.lists_of_not_isStatement
    rcases hline with rfl | rfl <;> decide
  have hafter : start.after (source ++ [line]) = (start.after source).closeBrace := by
    rw [Position.after_concat, Position.step_closeBrace hp hline]
  have hlisted : start.listed (source ++ [line]) = start.listed source := by
    rw [Position.listed_concat, hlists, if_neg Bool.false_ne_true, List.append_nil]
  by_cases hblock : (start.after source).block = some (start.after source).depth
  -- The brace closes the block: the added lines are its last statements, and no block was closed before.
  · obtain ⟨hadded, haddedListed⟩ := Position.after_of_listed hp hannounced hblock
      (isStatement_added (r := r))
    rw [if_pos hblock, if_pos hblock]
    refine ⟨?_, ?_, ?_⟩
    · rw [hafter, Position.after_append, h.after, Position.after_concat, hadded,
        Position.step_closeBrace hp hline]
    · rw [Position.listed_append, h.after, Position.listed_concat, hlists,
        if_neg Bool.false_ne_true, haddedListed, List.append_nil, List.flatMap_append,
        flatMap_declared_added, ← h.eq_declared]
    · rw [hlisted, hafter]
      intro hblocks
      have hopen : (start.after source).isClosed = false := by
        rw [Position.isClosed, hblock]
        exact Bool.and_false _
      have hne : (start.after source).blocks ≠ 0 := by
        intro hzero
        rw [Position.block_of_blocks hzero] at hblock
        cases hblock
      have hclosed : (start.after source).closeBrace.isClosed = true := by
        rw [Position.isClosed, Position.closeBrace, if_pos hblock]
        simpa using Nat.pos_of_ne_zero hne
      rw [h.listed hblocks, hopen, hclosed, if_neg Bool.false_ne_true, if_pos rfl, List.append_nil]
  · rw [if_neg hblock, if_neg hblock, List.nil_append, List.append_nil]
    refine ⟨?_, ?_, ?_⟩
    · rw [hafter, Position.after_concat, h.after, Position.step_closeBrace hp hline]
    · rw [Position.listed_concat, hlists, if_neg Bool.false_ne_true, List.append_nil]
      exact h.eq_declared
    · rw [hlisted, hafter, Position.closeBrace, if_neg hblock]
      exact h.listed

/-- A statement in the block declares what its entry says, and an aside declares nothing. -/
theorem flatMap_statement {declares : String → List (PropertyKind × String)} {p : Position}
    {text : String} (hp : p.inProgram = false) (hstart : isProgramStart line = false)
    (hbrace : isBrace line = false) (htext : isStatement text = isStatement line)
    (hdeclares : p.block = some p.depth → declares text = (r.propertyLine line).1) :
    (if p.lists text then [text] else []).flatMap declares
      = if p.block = some p.depth then (r.propertyLine line).1 else [] := by
  have hlists : p.lists text = (isStatement line && p.block = some p.depth) := by
    rw [Position.lists, hp, htext]
    rfl
  by_cases hblock : p.block = some p.depth
  · cases hstatement : isStatement line with
    | true => simp [hlists, hstatement, hblock, hdeclares hblock]
    | false =>
      have haside : isAside line = true := by
        rw [isStatement, hstart, hbrace] at hstatement
        simpa using hstatement
      simp [hlists, hstatement, propertyLine_of_isAside r haside]
  · simp [hlists, hblock]

theorem statement {w : Writer} (h : Fills r main properties source)
    (hp : (start.after source).inProgram = false) (hstart : isProgramStart line = false)
    (hbrace : isBrace line = false)
    (haside : isAside line = true → (start.after source).announced = false)
    (hblock : (start.after source).block = w.outline.propertiesDepth)
    (hdepth : (start.after source).depth = w.outline.depth) :
    Fills r (main ++ [w.outerText r line])
      (properties ++ if (start.after source).block = some (start.after source).depth then
        (r.propertyLine line).1 else [])
      (source ++ [line]) := by
  obtain ⟨hstart', hbrace'⟩ := plain_outerText r w hstart hbrace
  have htext := isStatement_outerText r w hstart hbrace
  have hstep := Position.step_of_plain hp hstart hbrace haside
  refine ⟨?_, ?_, ?_⟩
  · rw [Position.after_concat, Position.after_concat, h.after, hstep,
      Position.step_of_plain hp hstart' hbrace' (by rwa [isAside_outerText])]
    simp only [beq_eq_decide, outerText_eq_properties_iff]
  · rw [Position.listed_concat, h.after, List.flatMap_append, ← h.eq_declared,
      flatMap_statement hp hstart hbrace htext]
    intro hlisted
    rw [Writer.outerText, if_pos (by rw [← hblock, ← hdepth, hlisted]), declared_propertyLine]
  · rw [Position.after_concat, hstep, Position.listed_concat, List.flatMap_append,
      flatMap_statement hp hstart hbrace rfl fun _ => rfl]
    intro hblocks
    rw [h.listed hblocks]
    -- While the block is open, nothing has been added behind what the sources declare.
    by_cases hlisted : (start.after source).block = some (start.after source).depth
    · simp [Position.isClosed, hlisted]
    · simp [Position.isClosed, hlisted]

end Fills

/-- The line that names a shader is no directive and no comment. -/
theorem not_isAside_of_isShaderLine {line : String} (h : Writer.isShaderLine line = true) :
    isAside line = false := by
  rw [Writer.isShaderLine] at h
  split at h
  · rename_i hafter
    rw [isAside, Text.after?_eq_some_iff.1 hafter]
    rfl
  · cases h

namespace Writer

/-! ## What writing leaves alone -/

/-- The text outside of program blocks is where it was, and the lists are the same. -/
structure Same (w w' : Writer) : Prop where
  outline : w'.outline = w.outline
  properties : w'.properties = w.properties

variable {r : Request} {w w₁ w' : Writer} {line : String} {lines source out live : List String}

theorem Same.trans (h : Same w w₁) (h' : Same w₁ w') : Same w w' :=
  ⟨h'.outline.trans h.outline, h'.properties.trans h.properties⟩

theorem same_put (w : Writer) (lines : List String) : Same w (w.put lines) := by
  refine ⟨put_outline, ?_⟩
  rw [put]
  split <;> rfl

theorem same_write (w : Writer) (lines : List String) : Same w (w.write lines) := by
  cases hprogram : w.program with
  | none =>
    rw [write_of_none hprogram]
    exact w.same_put lines
  | some p =>
    rw [write_of_some hprogram]
    have hput := same_put { w with program := some (p.write lines).1 } (p.write lines).2
    exact ⟨hput.outline, hput.properties⟩

theorem same_feedRegions (w : Writer) (line : String) : Same w (w.feedRegions line).1 := by
  have hwrite := same_write { w with regions := (w.regions.feed line).filter }
    (w.regions.feed line).written
  exact ⟨hwrite.outline, hwrite.properties⟩

theorem same_liveInclude (w : Writer) (directive : String) (target : Option String) :
    Same w (w.liveInclude directive target).1 := by
  rw [liveInclude]
  split
  · exact w.same_put _
  · rename_i p hprogram
    have hput := same_put { w with program := some (p.feed directive).1 } (p.feed directive).2.1
    have hfed : Same w ({ w with program := some (p.feed directive).1 }.put (p.feed directive).2.1) :=
      ⟨hput.outline, hput.properties⟩
    dsimp only
    split
    · exact hfed
    · exact hfed
    · exact hfed.trans (same_write _ _)

theorem same_endInclude (w : Writer) (target : String) : Same w (w.endInclude target) := by
  rw [endInclude]
  split
  · exact ⟨rfl, rfl⟩
  · have hwrite := fun w₁ : Writer => same_write w₁
    exact ⟨(hwrite _ _).outline, (hwrite _ _).properties⟩

theorem same_endProgram {p : Program} {last : Option String} (h : w.endProgram p last = .ok w') :
    Same w w' := by
  obtain ⟨held, report, -, rfl⟩ := endProgram_eq h
  have hput := same_put { w with program := none, reports := w.reports ++ report }
    (held ++ last.toList)
  exact ⟨hput.outline, hput.properties⟩

theorem same_programLine {p : Program} (h : w.programLine r p line = .ok w') : Same w w' := by
  cases hend : isBlockEnd line with
  | true =>
    rw [programLine, if_pos hend] at h
    exact same_endProgram h
  | false =>
    obtain ⟨p', written, -, rfl⟩ := programLine_eq hend h
    have hput := same_put { w with program := some p' } written
    exact ⟨hput.outline, hput.properties⟩

theorem main_of_nil (hnested : w.nested = []) (lines : List String) :
    (w.put lines).main.toList = w.main.toList ++ lines := by
  rw [put_of_nil hnested]
  simp

/-! ## What stands behind the main file -/

/-- The lines that are not in the main file yet. -/
def rest (w : Writer) : List String := w.nested.reverse.flatMap Array.toList ++ w.held

theorem lines_eq_main_append (w : Writer) : w.lines = w.main.toList ++ w.rest := by
  rw [lines, written, rest, List.append_assoc]

/-- The end of a program block is always written to the main file. -/
structure IsQuiet (w : Writer) : Prop where
  nested : w.program = none → w.nested = []
  rest : ∀ line ∈ w.rest, isBlockEnd line = false
  defers : w.DefersPlain

theorem isQuiet_of_none (hprogram : w.program = none) (hnested : w.nested = []) : w.IsQuiet where
  nested _ := hnested
  rest line hline := by
    rw [Writer.rest, hnested, held_of_none hprogram] at hline
    cases hline
  defers p hp := by
    rw [hprogram] at hp
    cases hp

/-! ## The relation -/

/-- The outline of a writer describes a position. -/
structure Stands (w : Writer) (p : Position) : Prop where
  inProgram : p.inProgram = w.program.isSome
  depth : p.depth = w.outline.depth
  announced : p.announced = w.outline.propertiesAnnounced
  block : p.block = w.outline.propertiesDepth
  hasProperties : w.outline.hasProperties = decide (0 < p.blocks)

/-- What a writer has listed, for the live lines that it has read. -/
structure Lists (r : Request) (w : Writer) (source : List String) : Prop where
  quiet : w.IsQuiet
  stands : w.Stands (start.after source)
  fills : Fills r w.main.toList w.properties source
  places : Places w.main.toList w.outline (start.after source)

theorem lists_new (r : Request) : Lists r (.new r) [] where
  quiet := isQuiet_of_none rfl rfl
  stands := ⟨rfl, rfl, rfl, rfl, rfl⟩
  fills := ⟨rfl, rfl, fun _ => rfl⟩
  places := ⟨fun _ => ⟨rfl, Int.le_refl 0, rfl⟩, by rintro _ ⟨⟩, by rintro _ ⟨⟩⟩

theorem Lists.inProgram (h : w.Lists r source) (hprogram : w.program = none) :
    (start.after source).inProgram = false := by
  rw [h.stands.inProgram, hprogram]
  rfl

/-- The main file gets longer by lines that count for nothing outside of program blocks. -/
theorem Lists.grow (h : w.Lists r source) (hsame : Same w w') (hquiet : w'.IsQuiet)
    (hmain : w'.main.toList = w.main.toList ++ out)
    (hout : Switches (start.after source) out w'.program.isSome)
    (hlive : Switches (start.after source) live w'.program.isSome) : w'.Lists r (source ++ live) := by
  have hafter : start.after (source ++ live)
      = { start.after source with inProgram := w'.program.isSome } := by
    rw [Position.after_append, hlive.1]
  refine ⟨hquiet, ?_, ?_, ?_⟩
  · rw [hafter]
    refine ⟨rfl, ?_, ?_, ?_, ?_⟩
    · rw [hsame.outline]
      exact h.stands.depth
    · rw [hsame.outline]
      exact h.stands.announced
    · rw [hsame.outline]
      exact h.stands.block
    · rw [hsame.outline]
      exact h.stands.hasProperties
  · rw [hmain, hsame.properties]
    exact h.fills.turn hout hlive
  · rw [hafter, hmain]
    exact h.places.append out (by rw [hsame.outline]) (by rw [hsame.outline]) (Nat.le_refl _)
      h.places.unopened

/-! ## Outside of program blocks -/

theorem openBrace_eq (hnested : w.nested = []) (line : String) : w.openBrace line
    = { w with
        outline := { w.outline with
          depth := w.outline.depth + 1
          shaderBody := if w.outline.depth + 1 == 1 && w.outline.shaderBody.isNone then
            some (w.main.size + 1) else w.outline.shaderBody
          propertiesAnnounced := false
          propertiesDepth := if w.outline.propertiesAnnounced then some (w.outline.depth + 1)
            else w.outline.propertiesDepth
          hasProperties := w.outline.propertiesAnnounced || w.outline.hasProperties }
        main := w.main ++ [line] } := by
  have hput : ∀ outline : Outline,
      ({ w with outline } : Writer).put [line] = { w with outline, main := w.main ++ [line] } :=
    fun outline => @put_of_nil { w with outline } [line] hnested
  have hsize : (w.main ++ [line]).size = w.main.size + 1 := by simp
  simp only [openBrace, hput]
  cases hannounced : w.outline.propertiesAnnounced with
  | true =>
    simp only [if_true, Bool.true_or, hsize]
    split <;> rfl
  | false =>
    simp only [Bool.false_eq_true, if_false, Bool.false_or, hsize]
    split <;> simp_all

theorem closeBrace_eq (hnested : w.nested = []) (line : String) : w.closeBrace r line
    = { w with
        outline := { w.outline with
          depth := w.outline.depth - 1
          propertiesDepth := if w.outline.propertiesDepth = some w.outline.depth then none
            else w.outline.propertiesDepth }
        properties := w.properties
          ++ if w.outline.propertiesDepth = some w.outline.depth then
              r.addedProperties.map AddedProperty.entry else []
        main := w.main
          ++ ((if w.outline.propertiesDepth = some w.outline.depth then
              r.addedProperties.map AddedProperty.line else []) ++ [line]) } := by
  have hput : ∀ (outline : Outline) (properties : List (PropertyKind × String))
      (main : Array String) (lines : List String),
      ({ w with outline, properties, main } : Writer).put lines
        = { w with outline, properties, main := main ++ lines } :=
    fun outline properties main lines =>
      @put_of_nil { w with outline, properties, main } lines hnested
  simp only [closeBrace]
  split
  · simp only [putAdded, hput]
    simp [← Array.toList_inj]
  · have hline := hput { w.outline with depth := w.outline.depth - 1 } w.properties w.main [line]
    simp only [hline, List.append_nil, List.nil_append]

theorem outerStatement_eq_main (hnested : w.nested = []) (r : Request) (line : String) :
    w.outerStatement r line
      = { w with
          outline := { w.outline with
            propertiesAnnounced := w.outline.depth == 1 && line == "Properties"
            shaderLine :=
              if w.outline.shaderLine.isNone && w.outline.depth == 0 && isShaderLine line then
                some w.main.size else w.outline.shaderLine }
          properties := w.properties
            ++ if w.outline.propertiesDepth = some w.outline.depth then (r.propertyLine line).1 else []
          main := w.main ++ [w.outerText r line] } := by
  simp only [outerStatement, outerText]
  split
  · split
    · rw [put_of_nil (by exact hnested)]
    · rw [put_of_nil (by exact hnested), List.append_nil]
  · split
    · rw [put_of_nil (by exact hnested)]
    · rw [put_of_nil (by exact hnested), List.append_nil]

/-- An opening brace opens the block of the properties if it has been announced. -/
theorem Lists.openBrace (h : w.Lists r source) (hprogram : w.program = none) :
    (w.openBrace "\x7b").Lists r (source ++ ["\x7b"]) := by
  have hnested := h.quiet.nested hprogram
  have hp := h.inProgram hprogram
  have hafter : start.after (source ++ ["\x7b"]) = (start.after source).openBrace := by
    rw [Position.after_concat, Position.step_openBrace hp]
  have hmain : (w.openBrace "\x7b").main.toList = w.main.toList ++ ["\x7b"] := by
    rw [openBrace_eq hnested]
    simp
  obtain ⟨-, hdepth, hannounced, hblock, hproperties⟩ := h.stands
  refine ⟨?_, ?_, ?_, ?_⟩
  · rw [openBrace_eq hnested]
    exact isQuiet_of_none hprogram hnested
  · rw [hafter, openBrace_eq hnested, Position.openBrace, hannounced]
    cases w.outline.propertiesAnnounced with
    | true =>
      rw [if_pos rfl, hdepth]
      refine ⟨by rw [hp, hprogram]; rfl, rfl, rfl, rfl, ?_⟩
      exact (decide_eq_true (Nat.succ_pos _)).symm
    | false =>
      rw [if_neg Bool.false_ne_true, hdepth, hblock]
      exact ⟨by rw [hp, hprogram]; rfl, rfl, rfl, rfl, hproperties⟩
  · rw [hmain, openBrace_eq hnested]
    exact h.fills.openBrace hp
  · rw [hafter, hmain]
    -- The place behind the brace is remembered once.
    by_cases hfirst : w.outline.depth + 1 = 1 ∧ w.outline.shaderBody = none
    · refine h.places.openBody h.fills.after hp (by omega) ?_ hfirst.2 ?_
      · rw [openBrace_eq hnested]
      · rw [openBrace_eq hnested]
        simp [hfirst.1, hfirst.2]
    · refine h.places.append _ ?_ ?_ ?_ ?_
      · rw [openBrace_eq hnested]
      · rw [openBrace_eq hnested]
        refine if_neg ?_
        rw [Bool.and_eq_true, beq_iff_eq, Option.isNone_iff_eq_none]
        exact hfirst
      · have hle := Position.blocks_le_step (start.after source) "\x7b"
        rwa [Position.step_openBrace hp] at hle
      · intro hnone
        obtain ⟨hfalse, hle, hzero⟩ := h.places.unopened hnone
        have hne : w.outline.depth + 1 ≠ 1 := fun heq => hfirst ⟨heq, hnone⟩
        rw [Position.openBrace, hfalse, if_neg Bool.false_ne_true]
        exact ⟨rfl, by dsimp only; omega, hzero⟩

/-- A closing brace closes the block of the properties, if it is the block's. -/
theorem Lists.closeBrace (h : w.Lists r source) (hprogram : w.program = none)
    (hannounced : w.outline.propertiesAnnounced = false)
    (hline : line = "\x7d" ∨ line = "\x7d;") :
    (w.closeBrace r line).Lists r (source ++ [line]) := by
  have hnested := h.quiet.nested hprogram
  have hp := h.inProgram hprogram
  have hfalse : (start.after source).announced = false := by rw [h.stands.announced, hannounced]
  have hafter : start.after (source ++ [line]) = (start.after source).closeBrace := by
    rw [Position.after_concat, Position.step_closeBrace hp hline]
  obtain ⟨-, hdepth, -, hblock, hproperties⟩ := h.stands
  have hdeclares := h.fills.closeBrace hp hfalse hline
  rw [closeBrace_eq hnested]
  refine ⟨isQuiet_of_none hprogram hnested, ?_, ?_, ?_⟩
  · rw [hafter, Position.closeBrace]
    refine ⟨by rw [hp, hprogram]; rfl, ?_, hannounced.symm, ?_, hproperties⟩
    · exact congrArg (· - 1) hdepth
    · dsimp only
      rw [hblock, hdepth]
  · rw [Array.toList_appendList, ← hblock, ← hdepth]
    exact hdeclares
  · rw [hafter, Array.toList_appendList]
    refine h.places.append _ rfl rfl (Nat.le_refl _) ?_
    intro hnone
    obtain ⟨-, hle, hzero⟩ := h.places.unopened hnone
    exact ⟨rfl, by rw [Position.closeBrace]; dsimp only; omega, hzero⟩

/-- A line that is neither a brace nor a marker gives what it declares to the lists, and is written
as it declares. -/
theorem Lists.statement (h : w.Lists r source) (hprogram : w.program = none)
    (hstart : isProgramStart line = false) (hbrace : isBrace line = false)
    (hopens : w.outline.propertiesAnnounced = true → isAside line = false)
    (hnames : (w.outerStatement r line).outline.shaderLine ≠ w.outline.shaderLine →
      w.outline.shaderBody = none) :
    (w.outerStatement r line).Lists r (source ++ [line]) := by
  have hnested := h.quiet.nested hprogram
  have hp := h.inProgram hprogram
  obtain ⟨-, hdepth, hannounced, hblock, hproperties⟩ := h.stands
  have haside : isAside line = true → (start.after source).announced = false := by
    intro haside
    rw [hannounced, Bool.eq_false_iff]
    intro htrue
    rw [hopens htrue] at haside
    cases haside
  have hafter : start.after (source ++ [line]) = { start.after source with
      announced := (start.after source).depth == 1 && line == "Properties" } := by
    rw [Position.after_concat, Position.step_of_plain hp hstart hbrace haside]
  have hdeclares := h.fills.statement (w := w) hp hstart hbrace haside hblock hdepth
  rw [outerStatement_eq_main hnested] at hnames ⊢
  refine ⟨isQuiet_of_none hprogram hnested, ?_, ?_, ?_⟩
  · rw [hafter]
    refine ⟨by rw [hp, hprogram]; rfl, hdepth, ?_, hblock, hproperties⟩
    dsimp only
    rw [hdepth]
  · rw [Array.toList_appendList, ← hblock, ← hdepth]
    exact hdeclares
  · have hunannounced : (start.after source).depth ≤ 0 →
        ((start.after source).depth == 1 && line == "Properties") = false := by
      intro hle
      rw [beq_eq_false_iff_ne.2 (by omega), Bool.false_and]
    rw [hafter, Array.toList_appendList]
    dsimp only at hnames ⊢
    -- Either this line names the shader, or the places are the ones that have been known.
    split at hnames
    · rename_i hshader
      rw [if_pos hshader]
      rw [Bool.and_eq_true, Bool.and_eq_true, Option.isNone_iff_eq_none, beq_iff_eq] at hshader
      obtain ⟨⟨hunnamed, hzero⟩, hshaderLine⟩ := hshader
      have hnone := hnames (by rw [hunnamed]; exact Option.some_ne_none _)
      refine h.places.nameShader h.fills.after hp (hdepth.trans hzero) ?_ (by simp) rfl hnone rfl
        (hunannounced (by omega)) rfl
      rw [isStatement_outerText r w hstart hbrace, isStatement, hstart, hbrace,
        not_isAside_of_isShaderLine hshaderLine]
      rfl
    · rename_i hshader
      rw [if_neg hshader]
      refine h.places.append _ rfl rfl (Nat.le_refl _) ?_
      intro hnone
      obtain ⟨-, hle, hzero⟩ := h.places.unopened hnone
      exact ⟨hunannounced hle, hle, hzero⟩

end Writer

end ShaderMerge.Variant
