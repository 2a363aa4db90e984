import ShaderMerge.Proofs.Signature.Balance
import ShaderMerge.Proofs.Signature.Declarators

/-!
# Printed parameters

A `PrintedParameter` is a parameter with all that shader code allows between its parts: modifiers, a
type with arguments, a name, an array size, a semantic and a default, and blanks wherever there may be
some.  The semantic and the default are cut off where they are printed, since brackets are balanced
(`PrintedParameter.ofText?_text`).  What is in front of them is parted at its blanks before the array
size is looked for, so only parameters that satisfy `PrintedParameter.IsReadable` are read as they are
meant (`PrintedParameter.ofText?_text_iff`).
-/

namespace ShaderMerge.Signature

open Text (IsBlanks IsDense IsName isBlank trimmed words)
open Parameter (IsLead isModifier joinWords)

/-! ## Printed types -/

/-- A text in brackets behind a name, with the blanks in front of them. -/
structure PrintedBrackets where
  blanks : List Char
  inner : List Char
  isBlanks : IsBlanks blanks
  isBalanced : IsBalanced [] inner

namespace PrintedBrackets

/-- The text with brackets of one kind. -/
def text (b : PrintedBrackets) (opening closing : Char) : List Char :=
  b.blanks ++ opening :: (b.inner ++ [closing])

end PrintedBrackets

/-- A type: a name, perhaps with type arguments. -/
structure PrintedType where
  name : List Char
  arguments : Option PrintedBrackets
  isName : IsName name

namespace PrintedType

/-- The text of the type arguments. -/
def argumentText (t : PrintedType) : List Char := t.arguments.elim [] (·.text '<' '>')

/-- The text of a type. -/
def text (t : PrintedType) : List Char := t.name ++ t.argumentText

end PrintedType

/-! ## Printed parameters -/

/-- A parameter as it may be printed: its parts with the blanks between them.  The blanks around a
semantic and a default are part of their texts. -/
structure PrintedParameter where
  /-- The modifiers, each with the blanks behind it. -/
  lead : List Char
  type : PrintedType
  gap : List Char
  name : List Char
  size : Option PrintedBrackets
  /-- The blanks behind the declarator. -/
  space : List Char
  semantic : Option (List Char)
  default : Option (List Char)
  isLead : IsLead lead
  isGap : IsBlanks gap
  isParted : type.arguments = none → gap ≠ []
  isName : IsName name
  isSpace : IsBlanks space
  isSemantic : ∀ s ∈ semantic, IsBalanced [',', '='] s
  isDefault : ∀ d ∈ default, IsBalanced [','] d

namespace PrintedParameter

variable (p : PrintedParameter)

/-- The name with the array size. -/
def declarator : List Char := p.name ++ p.size.elim [] (·.text '[' ']')

/-- The text in front of the semantic. -/
def declaration : List Char := p.lead ++ (p.type.text ++ (p.gap ++ (p.declarator ++ p.space)))

/-- The text behind a colon. -/
def semanticText : List Char := p.semantic.elim [] (':' :: ·)

/-- The text behind an equals sign. -/
def defaultText : List Char := p.default.elim [] ('=' :: ·)

/-- The printed text. -/
def text : List Char := p.declaration ++ (p.semanticText ++ p.defaultText)

/-- The parameter that is printed: each part is its text without the blanks around it, and between
the words of the type single spaces stand for the blanks. -/
def value : Parameter where
  type := String.ofList (joinWords (words p.type.text))
  name := String.ofList p.name
  semantic := p.semantic.map fun s => String.ofList (trimmed s)
  arraySize := p.size.map fun b => String.ofList (trimmed b.inner)
  modifiers := (words p.lead).map String.ofList
  default := p.default.map fun d => String.ofList (trimmed d)

/-- Whether a printed parameter is read as it is meant: its type starts with no modifier and ends at
a blank, and its declarator is one word.  A bracket that ends an array size counts as one that closes
it. -/
structure IsReadable : Prop where
  type : ∀ word ∈ (words p.type.text).head?, isModifier word = false
  gap : p.gap ≠ []
  size : ∀ b ∈ p.size, b.blanks = [] ∧ (∀ c ∈ b.inner, isBlank c = false) ∧ b.inner.getLast? ≠ some ']'

end PrintedParameter

/-! ## The brackets of a printed parameter -/

/-- Names and blanks have neither brackets nor separators. -/
theorem isBalanced_of_forall {cs : List Char}
    (h : ∀ c ∈ cs, (Text.isNameChar c || isBlank c) = true) : IsBalanced [',', '=', ':'] cs := by
  refine .of_forall fun c hc => ?_
  have hother : ∀ d, (Text.isNameChar d || isBlank d) = false → c ≠ d := by
    rintro d hd rfl
    rw [h c hc] at hd
    cases hd
  constructor
  · simp [bracketStep, hother '(' (by decide), hother '[' (by decide), hother '<' (by decide),
      hother ')' (by decide), hother ']' (by decide), hother '>' (by decide)]
  · simp [hother ',' (by decide), hother '=' (by decide), hother ':' (by decide)]

theorem isBalanced_blanks {gap : List Char} (hgap : IsBlanks gap) : IsBalanced [',', '=', ':'] gap :=
  isBalanced_of_forall fun c hc => by rw [hgap c hc, Bool.or_true]

theorem isBalanced_name {name : List Char} (hname : IsName name) : IsBalanced [',', '=', ':'] name :=
  isBalanced_of_forall fun c hc => by rw [hname.forall_isNameChar c hc, Bool.true_or]

theorem PrintedBrackets.isBalanced_text (b : PrintedBrackets) {opening closing : Char}
    (hpair : (opening, closing) ∈ bracketPairs) :
    IsBalanced [',', '=', ':'] (b.text opening closing) :=
  (isBalanced_blanks b.isBlanks).append (.group_singleton hpair b.isBalanced)

/-- Brackets that may be left out. -/
theorem isBalanced_brackets (b : Option PrintedBrackets) {opening closing : Char}
    (hpair : (opening, closing) ∈ bracketPairs) :
    IsBalanced [',', '=', ':'] (b.elim [] (·.text opening closing)) := by
  cases b with
  | none => exact .nil
  | some b => exact b.isBalanced_text hpair

theorem PrintedType.isBalanced_text (t : PrintedType) : IsBalanced [',', '=', ':'] t.text :=
  (isBalanced_name t.isName).append (isBalanced_brackets t.arguments (by decide))

namespace PrintedParameter

variable (p : PrintedParameter)

theorem isBalanced_declaration : IsBalanced [',', '=', ':'] p.declaration := by
  refine (isBalanced_of_forall p.isLead.isNameChar_or_isBlank).append (p.type.isBalanced_text.append ?_)
  refine (isBalanced_blanks p.isGap).append (IsBalanced.append ?_ (isBalanced_blanks p.isSpace))
  exact (isBalanced_name p.isName).append (isBalanced_brackets p.size (by decide))

theorem isBalanced_semanticText : IsBalanced [',', '='] p.semanticText := by
  rw [semanticText]
  cases hsemantic : p.semantic with
  | none => exact .nil
  | some s => exact .cons (by decide) (by decide) (p.isSemantic s hsemantic)

theorem isBalanced_defaultText : IsBalanced [','] p.defaultText := by
  rw [defaultText]
  cases hdefault : p.default with
  | none => exact .nil
  | some d => exact .cons (by decide) (by decide) (p.isDefault d hdefault)

/-- Outside of its brackets, a printed parameter has no comma. -/
theorem isBalanced_text : IsBalanced [','] p.text :=
  (p.isBalanced_declaration.mono (by simp)).append
    ((p.isBalanced_semanticText.mono (by simp)).append p.isBalanced_defaultText)

/-! ## What a printed parameter is read from -/

/-- **The semantic and the default are cut off where they are printed.** -/
theorem ofText?_text :
    Parameter.ofText? p.text = Parameter.ofWords? (words p.declaration) p.semantic p.default := by
  have hequals : openBehind? '=' 0 (p.declaration ++ p.semanticText) = some 0 :=
    IsBalanced.openBehind?_zero ((p.isBalanced_declaration.mono (by simp)).append
      p.isBalanced_semanticText) (by decide)
  have hcolon : openBehind? ':' 0 p.declaration = some 0 :=
    p.isBalanced_declaration.openBehind?_zero (by decide)
  have hdefault : cutTop '=' p.defaultText = ([], p.default) := by
    rw [defaultText]
    cases p.default <;> rfl
  have hsemantic : cutTop ':' p.semanticText = ([], p.semantic) := by
    rw [semanticText]
    cases p.semantic <;> rfl
  rw [Parameter.ofText?_eq, Parameter.undefaulted, text, ← List.append_assoc, cutTop_append hequals,
    hdefault, List.append_nil, cutTop_append hcolon, hsemantic, List.append_nil]

theorem words_declaration :
    words p.declaration = words p.lead ++ words (p.type.text ++ (p.gap ++ p.declarator)) := by
  have htext : p.type.text ++ (p.gap ++ (p.declarator ++ p.space))
      = p.type.text ++ (p.gap ++ p.declarator) ++ p.space := by simp
  rw [declaration, p.isLead.words_append, htext, Text.words_append_blanks p.isSpace]

end PrintedParameter

/-! ## Reading a declaration -/

/-- A bracket that stands at the end of the size itself is taken off with the one that closes it. -/
theorem declarator_of_size {name : List Char} (hname : IsName name) (inner : List Char) :
    Parameter.declarator (name ++ '[' :: (inner ++ [']']))
      = (name, some (trimmed (Text.dropEndWhile (· == ']') inner))) := by
  have hall : ∀ c ∈ name, (c != '[') = true := by
    intro c hc
    rw [bne_iff_ne]
    rintro rfl
    exact hname.notMem (by decide) hc
  have hstops : Text.Stops (· != '[') ('[' :: (inner ++ [']'])) := by
    rintro c ⟨⟩
    rfl
  obtain ⟨htake, hdrop⟩ := Text.takeWhile_append_of_stops hall hstops
  have hclosing : Text.dropEndWhile (· == ']') (inner ++ [']']) = Text.dropEndWhile (· == ']') inner := by
    rw [Text.dropEndWhile, List.reverse_concat, List.dropWhile_cons_of_pos (by decide)]
    rfl
  rw [Parameter.declarator.eq_def, hdrop, htake]
  dsimp only
  rw [hclosing]

namespace PrintedType

variable (t : PrintedType)

/-- A type does not end in a blank. -/
theorem exists_eq_concat : ∃ front c, t.text = front ++ [c] ∧ isBlank c = false := by
  rw [text, argumentText]
  cases t.arguments with
  | none =>
    obtain hnil | ⟨front, c, heq⟩ := t.name.eq_nil_or_concat'
    · exact absurd hnil t.isName.isDense.1
    · refine ⟨front, c, by simpa using heq, t.isName.isDense.2 c ?_⟩
      rw [heq]
      exact List.mem_append_right _ List.mem_cons_self
  | some b =>
    refine ⟨t.name ++ (b.blanks ++ '<' :: b.inner), '>', ?_, by decide⟩
    simp [PrintedBrackets.text]

end PrintedType

namespace PrintedParameter

variable {p : PrintedParameter}

/-- **A readable parameter is read as it is meant.** -/
theorem IsReadable.ofText?_text (h : p.IsReadable) : Parameter.ofText? p.text = some p.value := by
  have hdense : IsDense p.declarator := by
    refine ⟨fun hnil => p.isName.isDense.1 (List.append_eq_nil_iff.1 hnil).1, ?_⟩
    refine List.forall_mem_append.2 ⟨p.isName.isDense.2, ?_⟩
    cases hsize : p.size with
    | none => exact nofun
    | some b =>
      obtain ⟨hblanks, hinner, -⟩ := h.size b hsize
      rw [Option.elim_some, PrintedBrackets.text, hblanks, List.nil_append]
      exact List.forall_mem_cons.2 ⟨by decide, List.forall_mem_append.2
        ⟨hinner, List.forall_mem_singleton.2 (by decide)⟩⟩
  have hdeclarator : Parameter.declarator p.declarator = (p.name, p.size.map (trimmed ·.inner)) := by
    rw [declarator]
    cases hsize : p.size with
    | none =>
      rw [Option.elim_none, List.append_nil, Parameter.declarator_of_isName p.isName]
      rfl
    | some b =>
      obtain ⟨hblanks, -, hlast⟩ := h.size b hsize
      have hkeep : Text.dropEndWhile (· == ']') b.inner = b.inner := by
        refine Text.dropEndWhile_eq_self_iff.2 fun c hc => beq_eq_false_iff_ne.2 ?_
        rintro rfl
        exact hlast hc
      rw [Option.elim_some, PrintedBrackets.text, hblanks, List.nil_append,
        declarator_of_size p.isName, hkeep]
      rfl
  have htype : words p.type.text ≠ [] := by
    obtain ⟨front, c, htext, hc⟩ := p.type.exists_eq_concat
    rw [htext]
    exact Text.words_ne_nil (List.mem_append_right front List.mem_cons_self) hc
  refine p.ofText?_text.trans (Parameter.ofWords?_eq_some_iff.2 ⟨words p.lead, words p.type.text,
    p.declarator, p.name, _, ?_, p.isLead.1, htype, h.type, hdeclarator, p.isName.isDense.1, ?_⟩)
  · rw [words_declaration, Text.words_append_gap h.gap p.isGap, Text.words_of_isDense hdense]
  · rw [value, Option.map_map]
    rfl

/-- A declarator has no blanks at its ends. -/
theorem declarator_ends (p : PrintedParameter) : (∀ c ∈ p.declarator.head?, isBlank c = false) ∧
    ∀ c ∈ p.declarator.getLast?, isBlank c = false := by
  have hname := p.isName.isDense
  constructor
  · obtain ⟨c, rest, heq⟩ := List.exists_cons_of_ne_nil hname.1
    rw [declarator, heq]
    rintro _ ⟨⟩
    exact hname.2 c (heq ▸ List.mem_cons_self)
  · rw [declarator]
    cases p.size with
    | none =>
      rw [Option.elim_none, List.append_nil]
      exact fun c hc => hname.2 c (List.mem_of_getLast? hc)
    | some b =>
      rw [Option.elim_some, PrintedBrackets.text, ← List.cons_append, ← List.append_assoc,
        ← List.append_assoc, List.getLast?_concat]
      rintro _ ⟨⟩
      decide

/-- A declaration that is read as it is meant has one word behind its type. -/
theorem exists_last_of_ofText?_text (h : Parameter.ofText? p.text = some p.value) :
    (∀ word ∈ (words p.type.text).head?, isModifier word = false) ∧ ∃ last,
      words (p.type.text ++ (p.gap ++ p.declarator)) = words p.type.text ++ [last] ∧
        Parameter.declarator last = (p.name, p.size.map (trimmed ·.inner)) := by
  rw [ofText?_text] at h
  obtain ⟨modifiers, types, last, name, size, hwords, -, -, hhead, hdeclarator, -, hvalue⟩ :=
    Parameter.ofWords?_eq_some_iff.1 h
  have hinjective : Function.Injective String.ofList := fun _ _ => String.ofList_injective
  have hmodifiers : words p.lead = modifiers :=
    List.map_injective_iff.2 hinjective (congrArg Parameter.modifiers hvalue)
  have htypes : words p.type.text = types := by
    have hdense : ∀ word ∈ types, IsDense word := by
      intro word hword
      have hmem : word ∈ words p.declaration := by
        rw [hwords]
        exact List.mem_append_right _ (List.mem_append_left _ hword)
      exact Text.isDense_of_mem_words hmem
    have hjoined : joinWords (words p.type.text) = joinWords types :=
      String.ofList_injective (congrArg Parameter.type hvalue)
    rw [← Text.words_intercalate hdense, ← joinWords, ← hjoined, joinWords,
      Text.words_intercalate fun word hword => Text.isDense_of_mem_words hword]
  have hname : p.name = name := String.ofList_injective (congrArg Parameter.name hvalue)
  have hsize : p.size.map (trimmed ·.inner) = size := by
    have hmap : (p.size.map (trimmed ·.inner)).map String.ofList = size.map String.ofList := by
      rw [Option.map_map]
      exact congrArg Parameter.arraySize hvalue
    exact Option.map_injective hinjective hmap
  rw [words_declaration, hmodifiers, ← htypes] at hwords
  refine ⟨?_, last, List.append_cancel_left hwords, by rw [hdeclarator, hname, hsize]⟩
  rwa [htypes]

/-- **A parameter that is read as it is meant is readable.** -/
theorem isReadable_of_ofText?_text (h : Parameter.ofText? p.text = some p.value) : p.IsReadable := by
  obtain ⟨hhead, last, hwords, hlast⟩ := exists_last_of_ofText?_text h
  have hgap : p.gap ≠ [] := by
    intro hnil
    -- Without a blank the last word of the type and the name are one word.
    obtain ⟨front, c, htext, hc⟩ := p.type.exists_eq_concat
    obtain ⟨before, w, htype, hbehind⟩ := Text.exists_words_concat hc front
    obtain ⟨y, behind, hboth⟩ := hbehind p.name (p.size.elim [] (·.text '[' ']')) p.isName.isDense
    rw [hnil, List.nil_append, htext, htype, declarator, hboth, List.append_assoc] at hwords
    have hw := (List.cons.inj (List.append_cancel_left hwords)).1
    exact p.isName.isDense.1 (List.append_eq_nil_iff.1 (List.append_right_eq_self.1 hw)).1
  rw [Text.words_append_gap hgap p.isGap] at hwords
  have hdense : IsDense p.declarator :=
    Text.isDense_of_words (List.append_cancel_left hwords) p.declarator_ends.1 p.declarator_ends.2
  have hword : p.declarator = last := by
    rw [Text.words_of_isDense hdense] at hwords
    exact (List.cons.inj (List.append_cancel_left hwords)).1
  refine ⟨hhead, hgap, fun b hb => ?_⟩
  rw [← hword, declarator, Option.mem_def.1 hb, Option.elim_some, PrintedBrackets.text] at hlast
  have hall := hdense.2
  rw [declarator, Option.mem_def.1 hb, Option.elim_some, PrintedBrackets.text] at hall
  obtain ⟨hblanks, hinner⟩ := List.forall_mem_append.1 (List.forall_mem_append.1 hall).2
  have hinner := (List.forall_mem_append.1 (List.forall_mem_cons.1 hinner).2).1
  have hnil : b.blanks = [] := by
    cases hcs : b.blanks with
    | nil => rfl
    | cons c cs =>
      have hmem : c ∈ b.blanks := hcs ▸ List.mem_cons_self
      have hc := hblanks c hmem
      rw [b.isBlanks c hmem] at hc
      cases hc
  refine ⟨hnil, hinner, fun hlast' => ?_⟩
  rw [hnil, List.nil_append, declarator_of_size p.isName] at hlast
  have hsize : trimmed (Text.dropEndWhile (· == ']') b.inner) = trimmed b.inner :=
    Option.some.inj (Prod.mk.inj hlast).2
  have hdrop : ∀ c ∈ Text.dropEndWhile (· == ']') b.inner, isBlank c = false := fun c hc =>
    hinner c ((Text.prefix_dropEndWhile _ _).subset hc)
  rw [Text.trimmed_of_forall hinner, Text.trimmed_of_forall hdrop, Text.dropEndWhile_eq_self_iff] at hsize
  exact absurd (hsize ']' hlast') (by decide)

/-- **What a printed parameter is read as.** -/
theorem ofText?_text_iff : Parameter.ofText? p.text = some p.value ↔ p.IsReadable :=
  ⟨isReadable_of_ofText?_text, IsReadable.ofText?_text⟩

/-- With a blank in front of the bracket that closes an array size, that bracket is taken for the
name. -/
example : (Parameter.ofText? "out float x[ 4 ]".toList).map (fun p => (p.type, p.name))
    = some ("float x[ 4", "]") := by decide

end PrintedParameter

end ShaderMerge.Signature
