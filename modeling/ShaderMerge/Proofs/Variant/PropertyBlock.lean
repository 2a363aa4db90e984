import ShaderMerge.Proofs.Property.Rereading
import ShaderMerge.Proofs.Variant.Growth
import ShaderMerge.Proofs.Variant.SelectionCode

/-!
# The block of the properties in a text

The block of the properties of a shader opens with the brace behind the line `Properties`, one brace
deep in the text; directives and comments may stand in between.  A `Position` follows a text up to
some line, so that the lines which stand directly in the block are known without a writer
(`Position.listed`).

What the writer writes in the place of a line is a line of the same kind (`isStatement_outerText`),
and declares what the writer puts on the lists of the variant (`declared_propertyLine`,
`flatMap_declared_added`).
-/

namespace ShaderMerge.Variant

open Include (isProgramStart isBlockEnd)
open Text (IsName Stops)

/-! ## Positions -/

/-- Whether a line is a directive or a comment. -/
def isAside (line : String) : Bool :=
  line.toList.head? == some '#' || line.toList.head? == some '/'

/-- Whether a line outside of program blocks is a statement, which no brace is. -/
def isStatement (line : String) : Bool :=
  !isProgramStart line && !isBrace line && !isAside line

/-- Where in a text a line stands. -/
structure Position where
  /-- Whether it is in a program block. -/
  inProgram : Bool
  /-- The number of open braces. -/
  depth : Int
  /-- Whether the next brace opens the block of the properties. -/
  announced : Bool
  /-- The number of open braces in the block of the properties, while it is open. -/
  block : Option Int
  /-- The number of blocks of properties so far. -/
  blocks : Nat
deriving DecidableEq

namespace Position

/-- In front of the first line. -/
def start : Position := ⟨false, 0, false, none, 0⟩

/-- Behind an opening brace. -/
def openBrace (p : Position) : Position :=
  if p.announced then
    { p with
      depth := p.depth + 1, announced := false, block := some (p.depth + 1), blocks := p.blocks + 1 }
  else { p with depth := p.depth + 1 }

/-- Behind a closing brace. -/
def closeBrace (p : Position) : Position :=
  { p with
    depth := p.depth - 1
    announced := false
    block := if p.block = some p.depth then none else p.block }

/-- Behind a line. -/
def step (p : Position) (line : String) : Position :=
  if p.inProgram then { p with inProgram := !isBlockEnd line }
  else if isProgramStart line then { p with inProgram := true }
  else if line = "\x7b" then p.openBrace
  else if line = "\x7d" || line = "\x7d;" then p.closeBrace
  else if isAside line then p
  else { p with announced := p.depth == 1 && line == "Properties" }

/-- Behind some lines. -/
def after (p : Position) (lines : List String) : Position := lines.foldl step p

/-- Whether a line is a statement directly in the block of the properties. -/
def lists (p : Position) (line : String) : Bool :=
  !p.inProgram && isStatement line && p.block = some p.depth

/-- The statements directly in the block of the properties, among some lines. -/
def listed (p : Position) : List String → List String
  | [] => []
  | line :: rest =>
    if p.lists line then line :: (p.step line).listed rest else (p.step line).listed rest

variable {p q : Position} {line : String} {lines front back : List String}

@[simp]
theorem after_nil (p : Position) : p.after [] = p := rfl

@[simp]
theorem after_cons (p : Position) (line : String) (lines : List String) :
    p.after (line :: lines) = (p.step line).after lines := rfl

@[simp]
theorem after_append (p : Position) (front back : List String) :
    p.after (front ++ back) = (p.after front).after back := List.foldl_append

theorem listed_append (p : Position) (front back : List String) :
    p.listed (front ++ back) = p.listed front ++ (p.after front).listed back := by
  induction front generalizing p with
  | nil => rfl
  | cons line rest ih =>
    rw [List.cons_append, listed, listed, ih, after_cons]
    split <;> rfl

/-- Lines that a position passes over: it stays the same, and none of them is listed. -/
def Skips (p : Position) (lines : List String) : Prop := p.after lines = p ∧ p.listed lines = []

theorem skips_of_forall (h : ∀ line ∈ lines, p.step line = p ∧ p.lists line = false) :
    p.Skips lines := by
  induction lines with
  | nil => exact ⟨rfl, rfl⟩
  | cons line rest ih =>
    obtain ⟨⟨hstep, hlists⟩, hrest⟩ := List.forall_mem_cons.1 h
    obtain ⟨hafter, hlisted⟩ := ih hrest
    refine ⟨?_, ?_⟩
    · rw [after_cons, hstep, hafter]
    · rw [listed, hlists, hstep, hlisted]
      rfl

/-- Only the end of the program block counts in it. -/
theorem skips_inProgram (hp : p.inProgram = true) (h : ∀ line ∈ lines, isBlockEnd line = false) :
    p.Skips lines := by
  apply skips_of_forall
  intro line hline
  refine ⟨?_, by rw [lists, hp]; rfl⟩
  rw [step, if_pos hp, h line hline, Bool.not_false, ← hp]

/-- A directive or a comment is neither a brace nor a marker. -/
theorem not_isStructural_of_isAside (h : isAside line = true) : isStructural line = false := by
  rw [isAside, Bool.or_eq_true, beq_iff_eq, beq_iff_eq] at h
  rcases h with hhead | hhead
  · exact isStructural_of_mem (List.mem_of_head? hhead) (by decide)
  · exact isStructural_of_mem (List.mem_of_head? hhead) (by decide)

theorem step_of_isAside (hp : p.inProgram = false) (h : isAside line = true) : p.step line = p := by
  have hplain := not_isStructural_of_isAside h
  simp only [isStructural, isBrace, Include.isMarker, Bool.or_eq_false_iff, decide_eq_false_iff_not]
    at hplain
  obtain ⟨⟨⟨hopen, hclose⟩, hclose'⟩, hstart, -⟩ := hplain
  rw [step, hp, if_neg Bool.false_ne_true, hstart, if_neg Bool.false_ne_true, if_neg hopen,
    if_neg (by simp [hclose, hclose']), if_pos h]

theorem skips_asides (hp : p.inProgram = false) (h : ∀ line ∈ lines, isAside line = true) :
    p.Skips lines := by
  apply skips_of_forall
  intro line hline
  refine ⟨step_of_isAside hp (h line hline), ?_⟩
  rw [lists, isStatement, h line hline, Bool.not_true, Bool.and_false, Bool.and_false]
  rfl

theorem step_of_isStatement (hp : p.inProgram = false) (h : isStatement line = true) :
    p.step line = { p with announced := p.depth == 1 && line == "Properties" } := by
  simp only [isStatement, isBrace, Bool.and_eq_true, Bool.not_eq_true', Bool.or_eq_false_iff,
    decide_eq_false_iff_not] at h
  obtain ⟨⟨hstart, ⟨hopen, hclose⟩, hclose'⟩, haside⟩ := h
  rw [step, hp, if_neg Bool.false_ne_true, hstart, if_neg Bool.false_ne_true, if_neg hopen,
    if_neg (by simp [hclose, hclose']), haside, if_neg Bool.false_ne_true]

/-- A line that is neither a brace nor a marker, if no aside stands between the line `Properties` and
its brace. -/
theorem step_of_plain (hp : p.inProgram = false) (hstart : isProgramStart line = false)
    (hbrace : isBrace line = false) (haside : isAside line = true → p.announced = false) :
    p.step line = { p with announced := p.depth == 1 && line == "Properties" } := by
  cases h : isAside line with
  | true =>
    have hne : line ≠ "Properties" := by
      rintro rfl
      revert h
      decide
    rw [step_of_isAside hp h, beq_eq_false_iff_ne.2 hne, Bool.and_false, ← haside h]
  | false =>
    refine step_of_isStatement hp ?_
    rw [isStatement, hstart, hbrace, h]
    rfl

theorem step_openBrace (hp : p.inProgram = false) : p.step "\x7b" = p.openBrace := by
  rw [step, hp, if_neg Bool.false_ne_true, if_neg (by decide), if_pos rfl]

theorem step_closeBrace (hp : p.inProgram = false) (h : line = "\x7d" ∨ line = "\x7d;") :
    p.step line = p.closeBrace := by
  have hstart : isProgramStart line = false ∧ line ≠ "\x7b" := by
    rcases h with rfl | rfl <;> decide
  rw [step, hp, if_neg Bool.false_ne_true, hstart.1, if_neg Bool.false_ne_true, if_neg hstart.2,
    if_pos (by simpa using h)]

/-- Statements directly in the block of the properties, none of which announces another one. -/
theorem after_of_listed (hp : p.inProgram = false) (hannounced : p.announced = false)
    (hblock : p.block = some p.depth)
    (h : ∀ line ∈ lines, isStatement line = true ∧ line ≠ "Properties") :
    p.after lines = p ∧ p.listed lines = lines := by
  induction lines with
  | nil => exact ⟨rfl, rfl⟩
  | cons line rest ih =>
    obtain ⟨⟨hstatement, hne⟩, hrest⟩ := List.forall_mem_cons.1 h
    obtain ⟨hafter, hlisted⟩ := ih hrest
    have hstep : p.step line = p := by
      rw [step_of_isStatement hp hstatement, beq_eq_false_iff_ne.2 hne, Bool.and_false, ← hannounced]
    refine ⟨by rw [after_cons, hstep, hafter], ?_⟩
    rw [listed, hstep, hlisted, lists, hp, hstatement, hblock]
    simp

/-! ## The number of blocks -/

theorem blocks_le_step (p : Position) (line : String) : p.blocks ≤ (p.step line).blocks := by
  rw [step]
  split
  · exact Nat.le_refl _
  split
  · exact Nat.le_refl _
  split
  · rw [openBrace]
    split
    · exact Nat.le_succ _
    · exact Nat.le_refl _
  split
  · exact Nat.le_refl _
  split <;> exact Nat.le_refl _

theorem blocks_le_after (p : Position) (lines : List String) : p.blocks ≤ (p.after lines).blocks := by
  induction lines generalizing p with
  | nil => exact Nat.le_refl _
  | cons line rest ih => exact Nat.le_trans (blocks_le_step p line) (ih _)

/-- Where no block is open and a line opens none, the number of blocks in front does not count. -/
theorem step_of_unopened (hblock : p.block = none) (h : (p.step line).blocks = p.blocks) (n : Nat) :
    (p.step line).block = none ∧
      ({ p with blocks := n } : Position).step line = { p.step line with blocks := n } := by
  rcases Bool.eq_false_or_eq_true p.inProgram with hprogram | hprogram
  · simp only [step, hprogram, if_true, hblock, and_self]
  · have hprogram' : ({ p with blocks := n } : Position).inProgram = false := hprogram
    by_cases hopen : line = "\x7b"
    · subst hopen
      rw [step_openBrace hprogram] at h ⊢
      rw [step_openBrace hprogram']
      cases hannounced : p.announced with
      | true =>
        rw [openBrace, hannounced, if_pos rfl] at h
        dsimp only at h
        omega
      | false => simp only [openBrace, hannounced, Bool.false_eq_true, if_false, hblock, and_self]
    by_cases hclose : line = "\x7d" ∨ line = "\x7d;"
    · rw [step_closeBrace hprogram hclose, step_closeBrace hprogram' hclose]
      simp only [closeBrace, hblock, reduceCtorEq, if_false, and_self]
    · have hnot : ¬ (line = "\x7d" || line = "\x7d;") = true := by simpa using hclose
      simp only [step, hprogram, hopen, hnot, Bool.false_eq_true, if_false]
      split
      · simp only [hblock, and_self]
      · split
        · simp only [hblock, hprogram, and_self]
        · simp only [hblock, and_self]

/-- Behind lines that open no block none is open, and nothing has been listed. -/
theorem after_of_unopened (hblock : p.block = none) (h : (p.after lines).blocks = p.blocks) (n : Nat) :
    (p.after lines).block = none ∧ p.listed lines = [] ∧
      ({ p with blocks := n } : Position).after lines = { p.after lines with blocks := n } ∧
      ({ p with blocks := n } : Position).listed lines = [] := by
  induction lines generalizing p with
  | nil => exact ⟨hblock, rfl, rfl, rfl⟩
  | cons line rest ih =>
    rw [after_cons] at h
    have hle := blocks_le_step p line
    have hle' := blocks_le_after (p.step line) rest
    obtain ⟨hnone, hstep⟩ := step_of_unopened hblock (by omega : (p.step line).blocks = p.blocks) n
    obtain ⟨hafter, hlisted, hother, hlisted'⟩ := ih hnone (by omega)
    have hlists : p.lists line = false ∧ ({ p with blocks := n } : Position).lists line = false := by
      simp [lists, hblock]
    refine ⟨hafter, ?_, ?_, ?_⟩
    · rw [listed, hlists.1, if_neg Bool.false_ne_true, hlisted]
    · rw [after_cons, after_cons, hstep, hother]
    · rw [listed, hlists.2, if_neg Bool.false_ne_true, hstep, hlisted']

/-- Outside of the block and of the shader one statement counts as much as another one. -/
theorem after_set {place : Nat} {text : String} (hline : lines[place]? = some line)
    (hp : (start.after (lines.take place)).inProgram = false)
    (hdepth : (start.after (lines.take place)).depth = 0)
    (hblock : (start.after (lines.take place)).block = none) (hold : isStatement line = true)
    (hnew : isStatement text = true) :
    start.after (lines.set place text) = start.after lines ∧
      start.listed (lines.set place text) = start.listed lines := by
  obtain ⟨hlt, hget⟩ := List.getElem?_eq_some_iff.1 hline
  have hcut : lines = lines.take place ++ line :: lines.drop (place + 1) := by
    rw [← hget, ← List.drop_eq_getElem_cons hlt, List.take_append_drop]
  have hset : lines.set place text = lines.take place ++ text :: lines.drop (place + 1) := by
    rw [List.set_eq_take_append_cons_drop, if_pos hlt]
  generalize lines.take place = front at hcut hset hp hdepth hblock
  generalize lines.drop (place + 1) = back at hcut hset
  have hstep : ∀ line, isStatement line = true →
      (start.after front).step line = { start.after front with announced := false } ∧
        (start.after front).lists line = false := by
    intro line hstatement
    refine ⟨?_, by simp [lists, hblock]⟩
    rw [step_of_isStatement hp hstatement, beq_eq_false_iff_ne.2 (by omega), Bool.false_and]
  rw [hset, hcut]
  refine ⟨?_, ?_⟩
  · rw [after_append, after_append, after_cons, after_cons, (hstep _ hold).1, (hstep _ hnew).1]
  · rw [listed_append, listed_append, listed, listed, (hstep _ hold).1, (hstep _ hnew).1,
      (hstep _ hold).2, (hstep _ hnew).2, if_neg Bool.false_ne_true, if_neg Bool.false_ne_true]

end Position

/-! ## Declarations -/

/-- What a line declares as a property, if its type word is known. -/
def declared (line : String) : List (PropertyKind × String) :=
  match PropertyLine.ofText? line.toList with
  | none => []
  | some declaration =>
    ((PropertyKind.ofTypeWord? (String.ofList declaration.head.typeWord)).map
      (·, String.ofList declaration.head.name)).toList

theorem name_of_texture? {t : Substitution} {name : String} {texture : SlicedTexture}
    (h : t.texture? name = some texture) : texture.name = name := by
  have hname := List.find?_some h
  exact of_decide_eq_true hname

/-- What is written for a declaration declares what the writer puts on the lists. -/
theorem declared_propertyLine (r : Request) (line : String) :
    declared (r.propertyLine line).2 = (r.propertyLine line).1 := by
  rw [Request.propertyLine]
  split
  · rename_i hnone
    rw [declared, hnone]
  · rename_i declaration hsome
    dsimp only
    split
    · rename_i texture htexture
      have hread := PropertyLine.ofText?_text (PropertyLine.isRead_of_ofText? hsome).toTextureArray
      have hkind : PropertyKind.ofTypeWord? "2DArray" = some .textureArray := by decide
      have hword : String.ofList declaration.toTextureArray.head.typeWord = "2DArray" :=
        String.ofList_toList
      have hname : String.ofList declaration.toTextureArray.head.name = texture.arrayName := by
        rw [SlicedTexture.arrayName, name_of_texture? htexture, ← String.toList_inj]
        simp [PropertyLine.toTextureArray]
      rw [declared, String.toList_ofList, hread]
      dsimp only
      rw [hword, hkind, hname]
      rfl
    · rw [declared, hsome]

/-! ## Numbers in the place of properties -/

/-- Whether a character tells a line from braces, markers and the line `Properties`. -/
def isMark (c : Char) : Bool := c.isDigit || c == '.' || c == 'f' || c == 'a' || c == '['

/-- The characters of numbers, and of the words for what is no finite number. -/
def isNumeral (c : Char) : Bool :=
  Selection.isNumberChar c || c == 'i' || c == 'n' || c == 'f' || c == 'N' || c == 'a'

/-- A text of these characters that can be told from other lines. -/
structure IsNumeral (cs : List Char) : Prop where
  chars : ∀ c ∈ cs, isNumeral c = true
  mark : ∃ c ∈ cs, isMark c = true

theorem isNumeral_of_isNumberChar {c : Char} (h : Selection.isNumberChar c = true) :
    isNumeral c = true := by
  simp [isNumeral, h]

theorem isMark_of_isDigit {c : Char} (h : c.isDigit = true) : isMark c = true := by
  simp [isMark, h]

theorem exists_isMark_toDigits (n : Nat) : ∃ c ∈ Nat.toDigits 10 n, isMark c = true := by
  obtain ⟨c, rest, hdigits⟩ := List.exists_cons_of_ne_nil (@Nat.toDigits_ne_nil n 10)
  have hc : c ∈ Nat.toDigits 10 n := hdigits ▸ List.mem_cons_self
  exact ⟨c, hc, isMark_of_isDigit (Nat.isDigit_of_mem_toDigits (by decide) (by decide) hc)⟩

theorem isNumeral_toString (n : Int) : IsNumeral (toString n).toList where
  chars c hc := isNumeral_of_isNumberChar (Selection.isNumberChar_of_mem_toString hc)
  mark := by
    cases n with
    | ofNat n =>
      change ∃ c ∈ n.repr.toList, _
      rw [Nat.toList_repr]
      exact exists_isMark_toDigits n
    | negSucc n =>
      change ∃ c ∈ ("-" ++ (n + 1).repr).toList, _
      rw [String.toList_append, Nat.toList_repr]
      obtain ⟨c, hc, hmark⟩ := exists_isMark_toDigits (n + 1)
      exact ⟨c, List.mem_append_right _ hc, hmark⟩

theorem isNumeral_positionalText {digits : List Char} (place : Int)
    (hdigits : ∀ c ∈ digits, Selection.isNumberChar c = true)
    (hmark : ∃ c ∈ digits, isMark c = true) :
    IsNumeral (NumberLayout.positionalText false digits place) where
  chars c hc := isNumeral_of_isNumberChar (Selection.isNumberChar_of_mem_positionalText hdigits hc)
  mark := by
    obtain ⟨c, hc, hdigit⟩ := hmark
    rw [NumberLayout.positionalText]
    split
    · exact ⟨c, by simp [hc], hdigit⟩
    · dsimp only
      split
      · exact ⟨'.', by simp, by decide⟩
      · exact ⟨'.', by simp, by decide⟩

theorem isNumeral_plain (x : Binary32) : IsNumeral (NumberLayout.plain.text x).toList := by
  rw [NumberLayout.text]
  split
  · exact ⟨List.all_eq_true.1 (by decide), 'a', by decide, by decide⟩
  · rw [String.toList_ofList]
    have hunsigned : IsNumeral (NumberLayout.plain.unsignedText x) := by
      rw [NumberLayout.unsignedText]
      split
      · exact ⟨List.all_eq_true.1 (by decide), 'f', by decide, by decide⟩
      split
      · exact ⟨List.all_eq_true.1 (by decide), '0', by decide, by decide⟩
      · dsimp only
        rw [if_pos (by rfl)]
        exact isNumeral_positionalText _ (fun c hc => Selection.isNumberChar_of_mem_toDigits hc)
          (exists_isMark_toDigits _)
    obtain ⟨hchars, c, hc, hmark⟩ := hunsigned
    refine ⟨?_, c, List.mem_append_right _ hc, hmark⟩
    intro d hd
    rcases List.mem_append.1 hd with hd | hd
    · split at hd
      · rw [List.mem_singleton.1 hd]
        decide
      · cases hd
    · exact hchars d hd

theorem isNumeral_commandWord? {value : Value} {word : String}
    (h : Substitution.commandWord? value = some word) : IsNumeral word.toList := by
  cases value with
  | float v =>
    cases h
    exact isNumeral_plain v
  | int v =>
    cases h
    exact isNumeral_toString v.toInt
  | vector v => cases h

/-! ## Rewritten statements -/

/-- Whether a text starts a directive or a comment. -/
def startsAside (cs : List Char) : Bool := cs.head? == some '#' || cs.head? == some '/'

theorem startsAside_of_isNumeral {cs : List Char} (h : IsNumeral cs) (rest : List Char) :
    startsAside (cs ++ rest) = false := by
  obtain ⟨hchars, c, hc, -⟩ := h
  cases cs with
  | nil => cases hc
  | cons d more =>
    have hd := hchars d List.mem_cons_self
    have hne : d ≠ '#' ∧ d ≠ '/' := by
      refine ⟨?_, ?_⟩ <;> rintro rfl <;> revert hd <;> decide
    simp [startsAside, hne.1, hne.2]

/-- A command is the same with its properties replaced, or has a mark, and starts a directive or a
comment only if it did before. -/
theorem substitute_eq_or_marked {value : String → Option String}
    (hvalue : ∀ name word, value name = some word → IsNumeral word.toList) (cs : List Char) :
    Command.substitute value cs = cs ∨
      (∃ c ∈ Command.substitute value cs, isMark c = true) ∧
        startsAside (Command.substitute value cs) = startsAside cs := by
  fun_induction Command.substitute value cs with
  | case1 => exact .inl rfl
  | case2 c rest name after found whole ih =>
    right
    have hbracket : c = '[' := by
      by_contra hne
      rw [Command.bracketedName?.eq_def] at found
      split at found
      · rename_i heq
        cases heq
        exact hne rfl
      · cases found
    subst hbracket
    cases hword : value (String.ofList name) with
    | none => exact ⟨⟨'[', by simp [whole], by decide⟩, rfl⟩
    | some word =>
      have hnumeral := hvalue _ word hword
      obtain ⟨d, hd, hmark⟩ := hnumeral.mark
      refine ⟨⟨d, ?_, hmark⟩, startsAside_of_isNumeral hnumeral _⟩
      exact List.mem_append_left _ hd
  | case3 c rest found ih =>
    rcases ih with ih | ⟨⟨d, hd, hmark⟩, -⟩
    · exact .inl (by rw [ih])
    · exact .inr ⟨⟨d, List.mem_cons_of_mem c hd, hmark⟩, rfl⟩

/-- A directive or a comment declares nothing. -/
theorem ofText?_of_startsAside {cs : List Char} (h : startsAside cs = true) :
    PropertyLine.ofText? cs = none := by
  rw [startsAside, Bool.or_eq_true, beq_iff_eq, beq_iff_eq] at h
  obtain ⟨c, rest, rfl, hc⟩ : ∃ c rest, cs = c :: rest ∧ (c = '#' ∨ c = '/') := by
    cases cs with
    | nil => rcases h with h | h <;> cases h
    | cons c rest =>
      rw [List.head?_cons, Option.some_inj, Option.some_inj] at h
      exact ⟨c, rest, rfl, h⟩
  have htags : PropertyTag.readAll (c :: rest) = ([], [], c :: rest) := by
    rw [PropertyTag.readAll.eq_def]
    split
    · rename_i found
      unfold PropertyTag.read? at found
      rcases hc with rfl | rfl <;> cases found
    · rfl
  have hname : Text.name? (c :: rest) = none := by
    rcases hc with rfl | rfl
    · rw [Text.name?, if_neg (by decide)]
    · rw [Text.name?, if_neg (by decide)]
  rw [PropertyLine.ofText?, htags]
  simp [PropertyHead.ofText?, hname]

theorem propertyLine_of_isAside (r : Request) {line : String} (h : isAside line = true) :
    r.propertyLine line = ([], line) := by
  have hnone : PropertyLine.ofText? line.toList = none := ofText?_of_startsAside h
  rw [Request.propertyLine, hnone]

theorem ofText?_properties : PropertyLine.ofText? "Properties".toList = none := by decide +kernel

/-- A text that takes the place of a line is the line, or it is marked, and starts a directive or a
comment only if the line does. -/
def IsWrittenFor (line text : String) : Prop :=
  text = line ∨
    (∃ c ∈ text.toList, isMark c = true) ∧ isAside text = isAside line ∧ line ≠ "Properties"

theorem not_startsAside_of_ofText? {cs : List Char} {declaration : PropertyLine}
    (h : PropertyLine.ofText? cs = some declaration) : startsAside cs = false := by
  rw [Bool.eq_false_iff]
  intro haside
  rw [ofText?_of_startsAside haside] at h
  cases h

/-- What declares a texture array has the mark of its type. -/
theorem isWrittenFor_propertyLine (r : Request) (line : String) :
    IsWrittenFor line (r.propertyLine line).2 := by
  rw [Request.propertyLine]
  split
  · exact .inl rfl
  · rename_i declaration hsome
    dsimp only
    split
    · right
      have hread := PropertyLine.ofText?_text (PropertyLine.isRead_of_ofText? hsome).toTextureArray
      refine ⟨⟨'2', ?_, by decide⟩, ?_, ?_⟩
      · rw [String.toList_ofList]
        simp [PropertyLine.text, PropertyLine.toTextureArray, PropertyHead.text]
      · rw [← String.toList_ofList (l := declaration.toTextureArray.text)] at hread
        exact (not_startsAside_of_ofText? hread).trans (not_startsAside_of_ofText? hsome).symm
      · rintro rfl
        rw [ofText?_properties] at hsome
        cases hsome
    · exact .inl rfl

/-- What takes the place of a property in a command has the marks of a number. -/
theorem isWrittenFor_command (r : Request) (line : String) : IsWrittenFor line (r.command line) := by
  by_cases hproperties : line = "Properties"
  · left
    rw [Request.command, substitute_of_not_mem, String.ofList_toList]
    rw [hproperties]
    decide
  · have hvalue : ∀ name word, r.substitution.inCommand? name = some word →
        IsNumeral word.toList := by
      intro name word hword
      obtain ⟨value, -, hvalue⟩ := Option.bind_eq_some_iff.1 hword
      exact isNumeral_commandWord? hvalue
    rcases substitute_eq_or_marked hvalue line.toList with hsame | ⟨⟨c, hc, hmark⟩, haside⟩
    · left
      rw [Request.command, hsame, String.ofList_toList]
    · right
      refine ⟨⟨c, ?_, hmark⟩, ?_, hproperties⟩
      · rw [Request.command, String.toList_ofList]
        exact hc
      · rw [Request.command, isAside, String.toList_ofList]
        exact haside

theorem isWrittenFor_outerText (r : Request) (w : Writer) (line : String) :
    IsWrittenFor line (w.outerText r line) := by
  rw [Writer.outerText]
  split
  · exact isWrittenFor_propertyLine r line
  · exact isWrittenFor_command r line

/-- A marked text is neither a brace nor a marker, and announces nothing. -/
theorem plain_of_isMark {text : String} {c : Char} (hc : c ∈ text.toList) (hmark : isMark c = true) :
    isStructural text = false ∧ text ≠ "Properties" := by
  refine ⟨isStructural_of_mem hc ?_, ?_⟩
  · simp only [isMark, Bool.or_eq_true, beq_iff_eq] at hmark
    rcases hmark with (((hdigit | rfl) | rfl) | rfl) | rfl
    · exact isStructuralChar_of_isDigit hdigit
    all_goals decide
  · rintro rfl
    have hnone : ∀ c ∈ "Properties".toList, isMark c = false := by
      have hall : "Properties".toList.all (!isMark ·) = true := by decide
      intro d hd
      simpa using List.all_eq_true.1 hall d hd
    rw [hnone c hc] at hmark
    cases hmark

theorem isStatement_of_plain {line : String} (h : isStructural line = false) :
    isStatement line = !isAside line := by
  simp only [isStructural, Include.isMarker, Bool.or_eq_false_iff] at h
  rw [isStatement, h.1, h.2.1]
  rfl

theorem isAside_outerText (r : Request) (w : Writer) (line : String) :
    isAside (w.outerText r line) = isAside line := by
  rcases isWrittenFor_outerText r w line with hsame | ⟨-, haside, -⟩
  · rw [hsame]
  · exact haside

/-- What is written for a line that is neither a brace nor a marker is neither of them. -/
theorem plain_outerText (r : Request) (w : Writer) {line : String}
    (hstart : isProgramStart line = false) (hbrace : isBrace line = false) :
    isProgramStart (w.outerText r line) = false ∧ isBrace (w.outerText r line) = false := by
  rcases isWrittenFor_outerText r w line with hsame | ⟨⟨c, hc, hmark⟩, -, -⟩
  · rw [hsame]
    exact ⟨hstart, hbrace⟩
  · have hplain := (plain_of_isMark hc hmark).1
    simp only [isStructural, Include.isMarker, Bool.or_eq_false_iff] at hplain
    exact ⟨hplain.2.1, hplain.1⟩

theorem isStatement_outerText (r : Request) (w : Writer) {line : String}
    (hstart : isProgramStart line = false) (hbrace : isBrace line = false) :
    isStatement (w.outerText r line) = isStatement line := by
  obtain ⟨hstart', hbrace'⟩ := plain_outerText r w hstart hbrace
  rw [isStatement, isStatement, hstart, hstart', hbrace, hbrace', isAside_outerText]

theorem outerText_eq_properties_iff (r : Request) (w : Writer) (line : String) :
    w.outerText r line = "Properties" ↔ line = "Properties" := by
  rcases isWrittenFor_outerText r w line with hsame | ⟨⟨c, hc, hmark⟩, -, hne⟩
  · rw [hsame]
  · exact iff_of_false (plain_of_isMark hc hmark).2 hne

/-! ## Added properties -/

theorem notMem_of_isNumeral {cs : List Char} (h : IsNumeral cs) {c : Char} (hc : isNumeral c = false) :
    c ∉ cs := by
  intro hmem
  rw [h.chars c hmem] at hc
  cases hc

/-- A line that declares a property which users do not see, of a known kind. -/
def IsHidden (p : AddedProperty) : Prop :=
  ∃ displayName typeWord default : String,
    p.line.toList = (PropertyLine.hidden p.name displayName typeWord default).text ∧
      (PropertyLine.hidden p.name displayName typeWord default).IsRead ∧
      PropertyKind.ofTypeWord? typeWord = some p.kind

theorem IsHidden.declared_eq {p : AddedProperty} (h : IsHidden p) : declared p.line = [p.entry] := by
  obtain ⟨displayName, typeWord, default, hline, hread, hkind⟩ := h
  have hword : String.ofList (PropertyLine.hidden p.name displayName typeWord default).head.typeWord
      = typeWord := String.ofList_toList
  have hname : String.ofList (PropertyLine.hidden p.name displayName typeWord default).head.name
      = p.name := String.ofList_toList
  rw [declared, hline, PropertyLine.ofText?_text hread]
  dsimp only
  rw [hword, hname, hkind]
  rfl

theorem isHidden_float {name displayName : String} (default : Binary32) (hname : IsName name.toList)
    (hquote : '"' ∉ displayName.toList) (hslash : '\\' ∉ displayName.toList) :
    IsHidden ⟨.float, name, PropertyLine.hiddenFloat name displayName default⟩ := by
  refine ⟨displayName, "Float", NumberLayout.plain.text default, ?_, ?_, rfl⟩
  · exact PropertyLine.toList_hiddenFloat name displayName default
  · exact PropertyLine.isRead_hidden hname hquote hslash (by decide) (List.all_eq_true.1 (by decide))
      (notMem_of_isNumeral (isNumeral_plain default) (by decide))

/-- The text of the default of a register. -/
def Registers.defaultText (r : Registers) (register : Nat) : String :=
  "(" ++ String.intercalate ", "
    ((r.defaults[register]?.getD .zero).components.map NumberLayout.plain.text) ++ ")"

theorem toList_registerLine (r : Registers) (mesh register : Nat) :
    (r.propertyLine mesh register).toList
      = (PropertyLine.hidden (Registers.registerName mesh register)
          ("Optimizer Animated " ++ toString mesh ++ " " ++ toString register) "Vector"
          (r.defaultText register)).text := by
  have hopening : " (\"Optimizer Animated ".toList = " (\"".toList ++ "Optimizer Animated ".toList := by
    decide
  have hgap : "\", Vector) = (".toList
      = "\", ".toList ++ ("Vector".toList ++ (") = ".toList ++ "(".toList)) := by decide
  unfold Registers.propertyLine PropertyLine.hidden Registers.defaultText
  simp only [PropertyLine.text, PropertyHead.text, PropertyHead.separator, String.toList_append,
    List.append_assoc, hopening, hgap]

theorem isName_registerName (mesh register : Nat) :
    IsName (Registers.registerName mesh register).toList := by
  have hfixed : IsName "_OptimizerAnimated".toList :=
    ⟨'_', "OptimizerAnimated".toList, rfl, by decide, List.all_eq_true.1 (by decide)⟩
  unfold Registers.registerName
  simp only [String.toList_append]
  refine Text.isName_append (Text.isName_append (Text.isName_append hfixed ?_) ?_) ?_
  · exact fun c hc => Text.isNameChar_of_mem_toString hc
  · exact List.all_eq_true.1 (by decide)
  · exact fun c hc => Text.isNameChar_of_mem_toString hc

theorem isHidden_register (r : Registers) (mesh register : Nat) :
    IsHidden ⟨.vector, Registers.registerName mesh register, r.propertyLine mesh register⟩ := by
  have hshown : ∀ c, c.isDigit = false → c ∉ "Optimizer Animated ".toList → c ∉ " ".toList →
      c ∉ ("Optimizer Animated " ++ toString mesh ++ " " ++ toString register).toList := by
    intro c hc hfixed hspace
    simp only [String.toList_append, List.mem_append, not_or]
    exact ⟨⟨⟨hfixed, Selection.notMem_toString hc⟩, hspace⟩, Selection.notMem_toString hc⟩
  refine ⟨_, "Vector", r.defaultText register, toList_registerLine r mesh register, ?_, rfl⟩
  refine PropertyLine.isRead_hidden (isName_registerName mesh register)
    (hshown '"' (by decide) (by decide) (by decide)) (hshown '\\' (by decide) (by decide) (by decide))
    (by decide) (List.all_eq_true.1 (by decide)) ?_
  rw [Registers.defaultText]
  simp only [String.toList_append, String.toList_intercalate, List.mem_append, not_or]
  refine ⟨⟨by decide, ?_⟩, by decide⟩
  refine Text.notMem_intercalate (by decide) ?_
  rw [List.map_map]
  refine List.forall_mem_map.2 fun x _ => ?_
  exact notMem_of_isNumeral (isNumeral_plain x) (by decide)

theorem isHidden_added {r : Request} {p : AddedProperty} (h : p ∈ r.addedProperties) : IsHidden p := by
  simp only [Request.addedProperties, List.mem_append] at h
  rcases h with (h | h) | h
  · split at h
    · obtain ⟨mesh, -, rfl⟩ := List.mem_map.1 h
      have hshown : ∀ c, c.isDigit = false → c ∉ "Is Active Mesh ".toList →
          c ∉ ("Is Active Mesh " ++ toString mesh).toList := by
        intro c hc hfixed
        rw [String.toList_append, List.mem_append, not_or]
        exact ⟨hfixed, Selection.notMem_toString hc⟩
      refine isHidden_float _ ?_ (hshown '"' (by decide) (by decide))
        (hshown '\\' (by decide) (by decide))
      rw [String.toList_append]
      exact Text.isName_append ⟨'_', "IsActiveMesh".toList, rfl, by decide, List.all_eq_true.1 (by decide)⟩
        fun c hc => Text.isNameChar_of_mem_toString hc
    · cases h
  · split at h
    · cases h
    · rw [List.mem_singleton] at h
      rw [h]
      exact isHidden_float _
        ⟨'_', "OptimizerZero".toList, rfl, by decide, List.all_eq_true.1 (by decide)⟩ (by decide)
        (by decide)
  · obtain ⟨⟨name, line⟩, hline, rfl⟩ := List.mem_map.1 h
    obtain ⟨place, -, heq⟩ := List.mem_map.1 hline
    cases heq
    exact isHidden_register _ _ _

/-- The declarations of the properties that a variant adds. -/
theorem flatMap_declared_added (r : Request) :
    (r.addedProperties.map AddedProperty.line).flatMap declared
      = r.addedProperties.map AddedProperty.entry := by
  rw [List.flatMap_map, ← List.flatMap_singleton' (r.addedProperties.map AddedProperty.entry),
    List.flatMap_map]
  exact List.flatMap_congr fun p hp => (isHidden_added hp).declared_eq

theorem isStatement_added {r : Request} :
    ∀ line ∈ r.addedProperties.map AddedProperty.line,
      isStatement line = true ∧ line ≠ "Properties" := by
  refine List.forall_mem_map.2 fun p hp => ?_
  have hhead := head?_addedProperties hp
  have hplain := plain_of_isMark (List.mem_of_head? hhead) (by decide)
  refine ⟨?_, hplain.2⟩
  rw [isStatement_of_plain hplain.1, isAside, hhead]
  rfl

end ShaderMerge.Variant
