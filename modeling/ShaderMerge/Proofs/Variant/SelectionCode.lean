import ShaderMerge.Proofs.Number.Hexadecimal
import ShaderMerge.Proofs.Signature.Splitting
import ShaderMerge.Proofs.Text.Pieces
import ShaderMerge.Proofs.Variant.Selection
import ShaderMerge.Number.Decimal

/-!
# What the code of a selection is worth

`Selection.worth?` reads the code that a selection is written as, knowing only the forms that such code
has: a choice between two branches by a comparison or by a bit of a mask, and an element of a constant
array whose declaration `constantArray?` reads.  `worth?_expression` says that it finds the literal of
the value that the selection selects; `select_of_ofValues?` puts this together with what
`Selection.IsFor` says of the chosen selection.

The parts of the code are found again because no part has the sign that ends it: literals have letters,
digits and a few signs only (`IsOperand`), and commas in them stand inside of brackets.
-/

namespace ShaderMerge

/-! ## Cutting a text -/

namespace Text

/-- A pattern is found where one of its characters stands for the first time. -/
theorem splitAtFirst?_append {c : Char} {front lead : List Char} (hfront : c ∉ front)
    (hlead : c ∉ lead) (tail rest : List Char) :
    splitAtFirst? (lead ++ c :: tail) (front ++ ((lead ++ c :: tail) ++ rest)) = some (front, rest) := by
  induction front with
  | nil =>
    rw [List.nil_append]
    cases hcs : (lead ++ c :: tail) ++ rest with
    | nil => simp at hcs
    | cons d ds =>
      rw [splitAtFirst?, ← hcs, if_pos (List.isPrefixOf_iff_prefix.2 (List.prefix_append _ _)),
        List.drop_left]
  | cons d front ih =>
    have hno : (lead ++ c :: tail).isPrefixOf (d :: (front ++ ((lead ++ c :: tail) ++ rest))) = false := by
      rw [Bool.eq_false_iff]
      intro hprefix
      have hshort : lead ++ [c] <+: d :: (front ++ ((lead ++ c :: tail) ++ rest)) := by
        refine List.IsPrefix.trans ?_ (List.isPrefixOf_iff_prefix.1 hprefix)
        exact ⟨tail, by simp⟩
      have hlong : d :: (front ++ lead) <+: d :: (front ++ ((lead ++ c :: tail) ++ rest)) :=
        ⟨c :: tail ++ rest, by simp⟩
      have hlength : (lead ++ [c]).length ≤ (d :: (front ++ lead)).length := by
        simp only [List.length_append, List.length_cons, List.length_nil]
        omega
      have hmem := (List.prefix_of_prefix_length_le hshort hlong hlength).subset
        (List.mem_append_right lead List.mem_cons_self)
      rw [← List.cons_append, List.mem_append] at hmem
      exact hmem.elim hfront hlead
    rw [List.cons_append, splitAtFirst?, hno, ih fun hmem => hfront (List.mem_cons_of_mem d hmem)]
    rfl

theorem splitAtFirst?_eq_none {c : Char} {pattern cs : List Char} (hpattern : c ∈ pattern)
    (hcs : c ∉ cs) : splitAtFirst? pattern cs = none := by
  induction cs with
  | nil =>
    cases pattern with
    | nil => cases hpattern
    | cons => rfl
  | cons d cs ih =>
    have hno : pattern.isPrefixOf (d :: cs) = false := by
      rw [Bool.eq_false_iff]
      intro hprefix
      exact hcs ((List.isPrefixOf_iff_prefix.1 hprefix).subset hpattern)
    rw [splitAtFirst?, hno, ih fun hmem => hcs (List.mem_cons_of_mem d hmem)]
    rfl

theorem until?_eq_none {close : Char} {cs : List Char} (h : close ∉ cs) : until? close cs = none := by
  have hnil : cs.dropWhile (· != close) = [] := by
    rw [List.dropWhile_eq_nil_iff]
    intro c hc
    rw [bne_iff_ne]
    rintro rfl
    exact h hc
  rw [until?, hnil]

end Text

namespace Variant

namespace Selection

/-! ## Literals -/

/-- The characters of numbers. -/
def isNumberChar (c : Char) : Bool := c.isDigit || c == '.' || c == '-' || c == 'e'

theorem isNumberChar_of_isDigit {c : Char} (h : c.isDigit = true) : isNumberChar c = true := by
  rw [isNumberChar, h]
  rfl

theorem isNumberChar_of_mem_toDigits {n : Nat} {c : Char} (h : c ∈ Nat.toDigits 10 n) :
    isNumberChar c = true :=
  isNumberChar_of_isDigit (Nat.isDigit_of_mem_toDigits (by decide) (by decide) h)

theorem isNumberChar_of_mem_toString {n : Int} {c : Char} (h : c ∈ (toString n).toList) :
    isNumberChar c = true := by
  cases n with
  | ofNat n =>
    change c ∈ n.repr.toList at h
    rw [Nat.toList_repr] at h
    exact isNumberChar_of_mem_toDigits h
  | negSucc n =>
    change c ∈ ("-" ++ (n + 1).repr).toList at h
    rw [String.toList_append, Nat.toList_repr, List.mem_append] at h
    rcases h with h | h
    · obtain rfl : c = '-' := by simpa using h
      decide
    · exact isNumberChar_of_mem_toDigits h

theorem isNumberChar_of_mem_positionalText {keepsPoint : Bool} {digits : List Char} {place : Int}
    (hdigits : ∀ c ∈ digits, isNumberChar c = true) {c : Char}
    (h : c ∈ NumberLayout.positionalText keepsPoint digits place) : isNumberChar c = true := by
  rw [NumberLayout.positionalText] at h
  split at h
  · rw [List.mem_append, List.mem_append] at h
    rcases h with (h | h) | h
    · exact hdigits c h
    · rw [(List.mem_replicate.1 h).2]
      decide
    · split at h
      · rcases List.mem_cons.1 h with rfl | h
        · decide
        · rw [List.mem_singleton.1 h]
          decide
      · cases h
  · dsimp only at h
    split at h
    · rw [List.mem_append, List.mem_cons] at h
      rcases h with h | rfl | h
      · exact hdigits c (List.mem_of_mem_take h)
      · decide
      · exact hdigits c (List.mem_of_mem_drop h)
    · rw [List.cons_append, List.cons_append, List.mem_cons, List.mem_cons, List.mem_append] at h
      rcases h with rfl | rfl | h | h
      · decide
      · decide
      · rw [(List.mem_replicate.1 h).2]
        decide
      · exact hdigits c h

theorem isNumberChar_of_mem_exponentText {digits : List Char} {exponent : Int}
    (hdigits : ∀ c ∈ digits, isNumberChar c = true) {c : Char}
    (h : c ∈ NumberLayout.exponentText digits exponent) : isNumberChar c = true := by
  rw [NumberLayout.exponentText.eq_def, List.mem_append, List.mem_cons] at h
  rcases h with h | rfl | h
  · split at h
    · rename_i first second rest
      rw [List.mem_cons, List.mem_cons] at h
      rcases h with rfl | rfl | h
      · exact hdigits c List.mem_cons_self
      · decide
      · exact hdigits c (List.mem_cons_of_mem first h)
    · exact hdigits c h
  · decide
  · exact isNumberChar_of_mem_toString h

/-- The text of a finite number. -/
theorem isNumberChar_of_mem_text {x : Binary32} (hnan : x.isNaN = false) (hinf : x.isInfinite = false)
    {c : Char} (h : c ∈ (NumberLayout.literal.text x).toList) : isNumberChar c = true := by
  rw [NumberLayout.text, hnan, if_neg Bool.false_ne_true, String.toList_ofList, List.mem_append] at h
  rcases h with h | h
  · split at h
    · rw [List.mem_singleton.1 h]
      decide
    · cases h
  · rw [NumberLayout.unsignedText, hinf, if_neg Bool.false_ne_true] at h
    split at h
    · have hall : ∀ c ∈ "0.0".toList, isNumberChar c = true := List.all_eq_true.1 (by decide)
      exact hall c h
    · have hdigits : ∀ c ∈ Nat.toDigits 10 x.shortest.1, isNumberChar c = true :=
        fun c hc => isNumberChar_of_mem_toDigits hc
      dsimp only at h
      split at h
      · exact isNumberChar_of_mem_positionalText hdigits h
      · exact isNumberChar_of_mem_exponentText hdigits h

/-- A text that can stand between commas: it has letters, digits, brackets and a few signs, nothing in
it separates, however many brackets are open around it, and it does not start with a space. -/
structure IsOperand (cs : List Char) : Prop where
  chars : ∀ c ∈ cs, (c.isAlphanum || ['.', '-', '(', ')', ',', ' '].contains c) = true
  closed : ∀ depth, 0 ≤ depth → Signature.openBehind? ',' depth cs = some depth
  head : cs.head? ≠ some ' '

theorem IsOperand.notMem {cs : List Char} (h : IsOperand cs) {c : Char}
    (hc : (c.isAlphanum || ['.', '-', '(', ')', ',', ' '].contains c) = false) : c ∉ cs := by
  intro hmem
  rw [h.chars c hmem] at hc
  cases hc

theorem isOperand_number {cs : List Char} (h : ∀ c ∈ cs, isNumberChar c = true) : IsOperand cs := by
  have hsigns : ∀ c ∈ cs, c.isDigit = true ∨ c = '.' ∨ c = '-' ∨ c = 'e' := by
    simpa only [isNumberChar, Bool.or_eq_true, beq_iff_eq, or_assoc] using h
  have hdigit : ∀ {d : Char}, isNumberChar d = false → d ∉ cs := by
    intro d hd hmem
    rw [h d hmem] at hd
    cases hd
  refine ⟨fun c hc => ?_, fun depth _ => ?_, fun hhead => ?_⟩
  · rcases hsigns c hc with hc | rfl | rfl | rfl
    · rw [Char.isAlphanum, hc, Bool.or_true, Bool.true_or]
    all_goals decide
  · exact Signature.openBehind?_of_forall h (by decide) (by decide)
  · exact hdigit (by decide) (List.mem_of_mem_head? hhead)

theorem isOperand_floatLiteral (x : Binary32) : IsOperand (floatLiteral x).toList := by
  have hbits : ∀ text ∈ ["asfloat(0x7fc00000)", "asfloat(0xff800000)", "asfloat(0x7f800000)"],
      IsOperand text.toList := by
    intro text htext
    simp only [List.mem_cons, List.not_mem_nil, or_false] at htext
    rcases htext with rfl | rfl | rfl
    all_goals
      refine ⟨List.all_eq_true.1 (by decide), fun depth _ => ?_, by decide⟩
      rw [Signature.openBehind?_of_notMem (by decide)]
      exact congrArg some (Int.add_zero depth)
  rw [floatLiteral]
  split
  · exact hbits _ (by simp)
  split
  · split
    · exact hbits _ (by simp)
    · exact hbits _ (by simp)
  · rename_i hnan hinf
    exact isOperand_number fun c => isNumberChar_of_mem_text (by simpa using hnan) (by simpa using hinf)

theorem toList_vectorLiteral (v : Vector4) : (vectorLiteral v).toList = "float4(".toList ++
    (List.intercalate [',', ' '] (v.components.map fun c => (floatLiteral c).toList) ++ [')']) := by
  rw [vectorLiteral, String.toList_append, String.toList_append, String.toList_intercalate,
    List.map_map, List.append_assoc]
  rfl

theorem isOperand_vectorLiteral (v : Vector4) : IsOperand (vectorLiteral v).toList := by
  have hlist : (vectorLiteral v).toList = "float4(".toList ++ ((floatLiteral v.x).toList ++
      ([',', ' '] ++ ((floatLiteral v.y).toList ++ ([',', ' '] ++ ((floatLiteral v.z).toList ++
      ([',', ' '] ++ ((floatLiteral v.w).toList ++ [')']))))))) := by
    simp only [toList_vectorLiteral, Vector4.components, List.map_cons, List.map_nil,
      List.intercalate_cons_cons, List.intercalate_singleton, List.append_assoc]
  have hx := isOperand_floatLiteral v.x
  have hy := isOperand_floatLiteral v.y
  have hz := isOperand_floatLiteral v.z
  have hw := isOperand_floatLiteral v.w
  rw [hlist]
  refine ⟨?_, fun depth hdepth => ?_, ?_⟩
  · have hcomma : ∀ c ∈ [',', ' '], (c.isAlphanum || ['.', '-', '(', ')', ',', ' '].contains c) = true :=
      List.all_eq_true.1 (by decide)
    simp only [List.forall_mem_append]
    exact ⟨List.all_eq_true.1 (by decide), hx.chars, hcomma, hy.chars, hcomma, hz.chars, hcomma,
      hw.chars, List.all_eq_true.1 (by decide)⟩
  · -- The commas between the components stand inside the brackets.
    have hopen : Signature.openBehind? ',' depth "float4(".toList = some (depth + 1) := by
      rw [Signature.openBehind?_of_notMem (by decide)]
      rfl
    have hcomma : Signature.openBehind? ',' (depth + 1) [',', ' '] = some (depth + 1) := by
      have hno : Signature.separatesAt ',' ',' (depth + 1) = false := by
        simp only [Signature.separatesAt, Bool.and_eq_false_iff, beq_eq_false_iff_ne]
        exact .inr (by omega)
      rw [Signature.openBehind?, hno, if_neg Bool.false_ne_true,
        Signature.openBehind?_of_notMem (by decide)]
      simp [Signature.bracketStep]
    have hclose : Signature.openBehind? ',' (depth + 1) [')'] = some depth := by
      rw [Signature.openBehind?_of_notMem (by decide)]
      simp [Signature.bracketStep]
    have hinside : 0 ≤ depth + 1 := by omega
    simp only [Signature.openBehind?_append, hopen, hcomma, hclose, hx.closed _ hinside,
      hy.closed _ hinside, hz.closed _ hinside, hw.closed _ hinside, Option.bind_some]
  · simp

theorem isOperand_literal (v : Value) : IsOperand v.literal.toList := by
  cases v with
  | float x => exact isOperand_floatLiteral x
  | int n => exact isOperand_number fun c => isNumberChar_of_mem_toString
  | vector v => exact isOperand_vectorLiteral v

/-! ## Reading the code -/

/-- A constant array in shader code. -/
structure ConstantArray where
  /-- The type of the elements. -/
  type : List Char
  /-- The name. -/
  name : List Char
  /-- The elements. -/
  elements : List (List Char)
deriving DecidableEq

/-- Read the declaration of a constant array with as many elements as its type says. -/
def constantArray? (cs : List Char) : Option ConstantArray := do
  let cs ← Text.after? "static const " cs
  let (type, cs) ← Text.until? ' ' cs
  let (name, cs) ← Text.until? '[' cs
  let (length, cs) ← Text.until? ']' cs
  let cs ← Text.after? " = \x7b " cs
  let (items, behind) ← Text.splitAtFirst? [' ', '\x7d', ';'] cs
  let elements := (Signature.splitTop ',' items).map fun item => (Text.afterChar? ' ' item).getD item
  if behind = [] ∧ length.all Char.isDigit ∧ elements.length = Decimal.digitsValue length then
    some ⟨type, name, elements⟩
  else none

/-- Whether a test holds for the material with a number: its comparison with another number, or its
bit in a mask. -/
def holdsFor? (material : List Char) (i : Nat) (test : List Char) : Option Bool :=
  match Text.splitAtFirst? [' ', '=', '=', ' '] test with
  | some (name, number) =>
    if name = material ∧ number.all Char.isDigit then some (i == Decimal.digitsValue number) else none
  | none => do
    let cs ← Text.after? "((0x" test
    let (mask, cs) ← Text.splitAtFirst? ['u', ' ', '>', '>', ' '] cs
    if cs = material ++ ") & 1)".toList then
      some ((ContentHash.numberOf (mask.map Char.toLower)).testBit i)
    else none

/-- What an expression is worth for the material with a number: the branch of a choice, the element
of an array, or the expression itself if it is neither. -/
def worth? (declared : Option ConstantArray) (material : List Char) (i : Nat) (cs : List Char) :
    Option (List Char) :=
  match Text.splitAtFirst? [' ', '?', ' '] cs with
  | some (test, branches) => do
    let (yes, no) ← Text.splitAtFirst? [' ', ':', ' '] branches
    let holds ← holdsFor? material i test
    return if holds then yes else no
  | none =>
    match Text.until? '[' cs with
    | none => some cs
    | some (name, index) => do
      let array ← declared
      if array.name = name ∧ index = material ++ [']'] then array.elements[i]? else none

/-! ## What the code of a selection says -/

theorem digitsValue_toString (n : Nat) : Decimal.digitsValue (toString n).toList = n := by
  rw [Text.toList_toString]
  exact Nat.ofDigitChars_ten_toDigits

theorem notMem_toString {n : Nat} {c : Char} (hc : c.isDigit = false) : c ∉ (toString n).toList := by
  intro hmem
  rw [Text.isDigit_of_mem_toString hmem] at hc
  cases hc

/-- A digit in upper case is the same digit, and none of the signs around a mask. -/
theorem toLower_toUpper_digitChar {d : Nat} (h : d < 16) :
    (Nat.digitChar d).toUpper.toLower = Nat.digitChar d ∧ (Nat.digitChar d).toUpper ∉ ['=', '>', '?'] := by
  interval_cases d <;> decide

theorem numberOf_hexText (n : Nat) :
    ContentHash.numberOf ((hexText n).toList.map Char.toLower) = n := by
  have hdigits : (hexText n).toList.map Char.toLower = Nat.toDigits 16 n := by
    rw [hexText, String.toList_ofList, List.map_map]
    conv_rhs => rw [← List.map_id (Nat.toDigits 16 n)]
    refine List.map_congr_left fun c hc => ?_
    obtain ⟨d, hd, rfl⟩ := ContentHash.exists_digitChar_of_mem_toDigits hc
    exact (toLower_toUpper_digitChar hd).1
  rw [hdigits, ContentHash.numberOf_toDigits]

theorem notMem_hexText {n : Nat} {c : Char} (hc : c ∈ ['=', '>', '?']) : c ∉ (hexText n).toList := by
  rw [hexText, String.toList_ofList]
  intro hmem
  obtain ⟨d, hd, rfl⟩ := List.mem_map.1 hmem
  obtain ⟨digit, hlt, rfl⟩ := ContentHash.exists_digitChar_of_mem_toDigits hd
  exact (toLower_toUpper_digitChar hlt).2 hc

section

variable {material : List Char} {i : Nat}

theorem holdsFor?_comparison (hmaterial : Text.IsName material) (index : Nat) :
    holdsFor? material i (material ++ ([' ', '=', '=', ' '] ++ (toString index).toList))
      = some (i == index) := by
  have hfront : '=' ∉ material := Text.IsName.notMem hmaterial (by decide)
  have hsplit := Text.splitAtFirst?_append hfront (by decide : '=' ∉ [' ']) ['=', ' ']
    (toString index).toList
  have hdigits : (toString index).toList.all Char.isDigit = true :=
    List.all_eq_true.2 fun c => Text.isDigit_of_mem_toString
  rw [holdsFor?]
  simp only [List.cons_append, List.nil_append] at hsplit ⊢
  simp only [hsplit, hdigits, digitsValue_toString, and_self, if_true]

theorem holdsFor?_mask (hmaterial : Text.IsName material) (mask : Nat) :
    holdsFor? material i ("((0x".toList ++ ((hexText mask).toList ++ (['u', ' ', '>', '>', ' '] ++
      (material ++ ") & 1)".toList)))) = some (mask.testBit i) := by
  have hno : '=' ∉ "((0x".toList ++ ((hexText mask).toList ++ (['u', ' ', '>', '>', ' '] ++
      (material ++ ") & 1)".toList))) := by
    simp only [List.mem_append, not_or]
    exact ⟨by decide, notMem_hexText (by decide), by decide, Text.IsName.notMem hmaterial (by decide),
      by decide⟩
  have hsplit := Text.splitAtFirst?_append (notMem_hexText (by decide) : '>' ∉ (hexText mask).toList)
    (by decide : '>' ∉ ['u', ' ']) ['>', ' '] (material ++ ") & 1)".toList)
  rw [holdsFor?, Text.splitAtFirst?_eq_none (by decide) hno]
  simp only [Text.after?_eq_some_iff.2 rfl, Option.bind_eq_bind, Option.bind_some]
  simp only [List.cons_append, List.nil_append] at hsplit ⊢
  simp only [hsplit, Option.bind_some, if_true, numberOf_hexText]

theorem worth?_choice (declared : Option ConstantArray) {test yes : List Char} (htest : '?' ∉ test)
    (hyes : ':' ∉ yes) (no : List Char) :
    worth? declared material i (test ++ ([' ', '?', ' '] ++ (yes ++ ([' ', ':', ' '] ++ no))))
      = (holdsFor? material i test).map fun holds => if holds then yes else no := by
  have hsplit := Text.splitAtFirst?_append htest (by decide : '?' ∉ [' ']) [' ']
    (yes ++ ([' ', ':', ' '] ++ no))
  have hsplit' := Text.splitAtFirst?_append hyes (by decide : ':' ∉ [' ']) [' '] no
  rw [worth?]
  simp only [List.cons_append, List.nil_append] at hsplit hsplit' ⊢
  simp only [hsplit, hsplit', Option.bind_eq_bind, Option.bind_some]
  cases holdsFor? material i test <;> rfl

end

/-- A text that can stand between the commas of an array: nothing in it separates, it has no brace
that ends the array, and it does not start with a space. -/
structure IsElement (cs : List Char) : Prop where
  closed : Signature.openBehind? ',' 0 cs = some 0
  brace : '\x7d' ∉ cs
  head : cs.head? ≠ some ' '

theorem IsOperand.isElement {cs : List Char} (h : IsOperand cs) : IsElement cs :=
  ⟨h.closed 0 (by decide), h.notMem (by decide), h.head⟩

/-- The elements between the braces are those that were written there. -/
theorem elements_intercalate {pieces : List (List Char)} (h : ∀ piece ∈ pieces, IsElement piece)
    (hne : pieces ≠ []) :
    (Signature.splitTop ',' (List.intercalate [',', ' '] pieces)).map
      (fun item => (Text.afterChar? ' ' item).getD item) = pieces := by
  obtain ⟨first, others, rfl⟩ := List.exists_cons_of_ne_nil hne
  rw [Signature.splitTop_intercalate (by decide) fun piece hpiece => (h piece hpiece).closed,
    List.map_cons, List.map_map]
  have hfirst : Text.afterChar? ' ' first = none := by
    have hhead := (h first List.mem_cons_self).head
    cases first with
    | nil => rfl
    | cons c rest =>
      rw [Text.afterChar?, if_neg]
      rintro rfl
      exact hhead rfl
  have hothers : others.map ((fun item => (Text.afterChar? ' ' item).getD item) ∘ ([' '] ++ ·))
      = others := by
    conv_rhs => rw [← List.map_id others]
    rfl
  rw [hfirst, hothers]
  rfl

/-- The text of a declaration is read back. -/
theorem constantArray?_text {type name : List Char} {pieces : List (List Char)} (htype : ' ' ∉ type)
    (hname : '[' ∉ name) (hpieces : ∀ piece ∈ pieces, IsElement piece) (hne : pieces ≠ []) :
    constantArray? ("static const ".toList ++ (type ++ ' ' :: (name ++ '[' ::
      ((toString pieces.length).toList ++ ']' ::
        (" = \x7b ".toList ++ (List.intercalate [',', ' '] pieces ++ [' ', '\x7d', ';']))))))
      = some ⟨type, name, pieces⟩ := by
  -- Each part of the declaration ends in front of a sign that does not occur in it.
  have hlength : ']' ∉ (toString pieces.length).toList := notMem_toString (by decide)
  have hitems : '\x7d' ∉ List.intercalate [',', ' '] pieces :=
    Text.notMem_intercalate (by decide) fun piece hpiece => (hpieces piece hpiece).brace
  have hsplit := Text.splitAtFirst?_append hitems (by decide : '\x7d' ∉ [' ']) [';'] []
  rw [constantArray?]
  simp only [Text.after?_eq_some_iff.2 rfl, Option.bind_eq_bind, Option.bind_some,
    Text.until?_append htype, Text.until?_append hname, Text.until?_append hlength]
  simp only [List.cons_append, List.nil_append, List.append_nil] at hsplit
  simp only [hsplit, Option.bind_some, elements_intercalate hpieces hne, digitsValue_toString]
  have hall : (toString pieces.length).toList.all Char.isDigit = true :=
    List.all_eq_true.2 fun c => Text.isDigit_of_mem_toString
  rw [if_pos ⟨trivial, hall, trivial⟩]

theorem notMem_arrayName {property : String} (hproperty : Text.IsName property.toList) :
    '[' ∉ (arrayName property).toList := by
  rw [arrayName, String.toList_append, List.mem_append, not_or]
  exact ⟨Text.IsName.notMem hproperty (by decide), by decide⟩

/-- The elements of the declared array are the literals of the values. -/
theorem constantArray?_declaration {property : String} (hproperty : Text.IsName property.toList)
    {values : List Value} (hne : values ≠ []) :
    ((indexed values).declaration? property).bind (fun line => constantArray? line.toList)
      = some ⟨(indexed values).typeName.toList, (arrayName property).toList,
          values.map fun v => v.literal.toList⟩ := by
  obtain ⟨first, others, rfl⟩ := List.exists_cons_of_ne_nil hne
  have hpieces : ∀ piece ∈ (first :: others).map (fun v => v.literal.toList), IsElement piece :=
    List.forall_mem_map.2 fun v _ => (isOperand_literal v).isElement
  have htype : ' ' ∉ (indexed (first :: others)).typeName.toList := by
    have hnames : ∀ name ∈ ["float", "int", "float4"], ' ' ∉ name.toList := by decide
    cases first <;> exact hnames _ (by simp [typeName, Value.typeName])
  have hname := notMem_arrayName hproperty
  have hline : (indexed (first :: others)).declaration? property = some (String.ofList
      ("static const ".toList ++ ((indexed (first :: others)).typeName.toList ++ ' ' ::
        ((arrayName property).toList ++ '[' :: ((toString
          ((first :: others).map fun v => v.literal.toList).length).toList ++ ']' ::
          (" = \x7b ".toList ++ (List.intercalate [',', ' ']
            ((first :: others).map fun v => v.literal.toList) ++ [' ', '\x7d', ';']))))))) := by
    rw [declaration?, Option.some_inj, ← String.toList_inj, String.toList_ofList, List.length_map]
    simp only [String.toList_append, String.toList_intercalate, List.map_map, List.append_assoc]
    rfl
  rw [hline, Option.bind_some, String.toList_ofList,
    constantArray?_text htype hname hpieces (by simp)]

/-- A selection that declares an array prints the type of its values for the elements. -/
theorem constantArray?_of_declaration? {s : Selection} {property line : String} {i : Nat} {v : Value}
    (hproperty : Text.IsName property.toList) (hselect : s.select i = some v)
    (hline : s.declaration? property = some line) :
    constantArray? line.toList = some ⟨s.typeName.toList, (arrayName property).toList,
      s.members.map fun v => v.literal.toList⟩ := by
  cases s with
  | indexed values =>
    have hne : values ≠ [] := by
      rintro rfl
      cases hselect
    have hdeclared := constantArray?_declaration hproperty hne
    rwa [hline, Option.bind_some] at hdeclared
  | _ => cases hline

/-- **The code of a selection is worth what the selection selects.** -/
theorem worth?_expression {s : Selection} {property material : String} {i : Nat} {v : Value}
    (hproperty : Text.IsName property.toList) (hmaterial : Text.IsName material.toList)
    (hselect : s.select i = some v) :
    worth? ((s.declaration? property).bind fun line => constantArray? line.toList) material.toList i
      (s.expression property material).toList = some v.literal.toList := by
  have hbranch : ∀ w : Value, ':' ∉ w.literal.toList :=
    fun w => (isOperand_literal w).notMem (by decide)
  cases s with
  | uniform value =>
    cases hselect
    have hchoice : '?' ∉ v.literal.toList := (isOperand_literal v).notMem (by decide)
    have harray : '[' ∉ v.literal.toList := (isOperand_literal v).notMem (by decide)
    rw [expression, worth?, Text.splitAtFirst?_eq_none (by decide) hchoice]
    simp only [Text.until?_eq_none harray]
  | singular index own shared =>
    have htest : '?' ∉ material.toList ++ ([' ', '=', '=', ' '] ++ (toString index).toList) := by
      simp only [List.mem_append, not_or]
      exact ⟨Text.IsName.notMem hmaterial (by decide), by decide, notMem_toString (by decide)⟩
    have hline : (expression (.singular index own shared) property material).toList
        = (material.toList ++ ([' ', '=', '=', ' '] ++ (toString index).toList)) ++
          ([' ', '?', ' '] ++ (own.literal.toList ++ ([' ', ':', ' '] ++ shared.literal.toList))) := by
      simp only [expression, String.toList_append, List.append_assoc]
      rfl
    rw [hline, worth?_choice _ htest (hbranch own), holdsFor?_comparison hmaterial]
    cases hselect
    by_cases hi : i = index
    · simp [hi]
    · simp [hi]
  | masked mask unset set =>
    have htest : '?' ∉ "((0x".toList ++ ((hexText mask).toList ++ (['u', ' ', '>', '>', ' '] ++
        (material.toList ++ ") & 1)".toList))) := by
      simp only [List.mem_append, not_or]
      exact ⟨by decide, notMem_hexText (by decide), by decide,
        Text.IsName.notMem hmaterial (by decide), by decide⟩
    have hline : (expression (.masked mask unset set) property material).toList
        = ("((0x".toList ++ ((hexText mask).toList ++ (['u', ' ', '>', '>', ' '] ++
          (material.toList ++ ") & 1)".toList)))) ++
          ([' ', '?', ' '] ++ (set.literal.toList ++ ([' ', ':', ' '] ++ unset.literal.toList))) := by
      simp only [expression, String.toList_append, List.append_assoc]
      rfl
    rw [hline, worth?_choice _ htest (hbranch set), holdsFor?_mask hmaterial]
    cases hselect
    cases mask.testBit i <;> rfl
  | indexed values =>
    have hname := notMem_arrayName hproperty
    have hchoice : '?' ∉ (arrayName property).toList ++ '[' :: (material.toList ++ [']']) := by
      simp only [arrayName, String.toList_append, List.mem_append, List.mem_cons, not_or]
      exact ⟨⟨Text.IsName.notMem hproperty (by decide), by decide⟩, by decide,
        Text.IsName.notMem hmaterial (by decide), by decide⟩
    have hline : (expression (.indexed values) property material).toList
        = (arrayName property).toList ++ '[' :: (material.toList ++ [']']) := by
      simp only [expression, String.toList_append, List.append_assoc]
      rfl
    obtain ⟨declared, hdeclared⟩ : ∃ line, (indexed values).declaration? property = some line :=
      ⟨_, rfl⟩
    rw [hline, worth?, Text.splitAtFirst?_eq_none (by decide) hchoice, hdeclared, Option.bind_some,
      constantArray?_of_declaration? hproperty hselect hdeclared]
    simp only [Text.until?_append hname, Option.bind_eq_bind, Option.bind_some]
    rw [if_pos ⟨trivial, trivial⟩, List.getElem?_map,
      show (indexed values).members[i]? = some v from hselect]
    rfl

/-- **The chosen selection is the right one.**  There is one for any materials; it gives each of them
its value brought to the common type, and its code is worth the literal of that value.  All values in
it have one type, which is the type of the elements where an array is declared for them.  Its shape tells how many values there are and how often each occurs,
and so does not depend on the order of the materials. -/
theorem select_of_ofValues? (given : List Value) (hne : given ≠ []) :
    ∃ s, ofValues? given = some s ∧
      (∀ i < given.length, ∃ v, (Value.unify given)[i]? = some v ∧ s.select i = some v ∧
        ∀ property material : String, Text.IsName property.toList → Text.IsName material.toList →
          worth? ((s.declaration? property).bind fun line => constantArray? line.toList)
            material.toList i (s.expression property material).toList = some v.literal.toList) ∧
      (∀ v ∈ s.members, v.typeName = s.typeName) ∧
      (∀ property line : String, Text.IsName property.toList → s.declaration? property = some line →
        ∃ array, constantArray? line.toList = some array ∧
          array.elements = s.members.map (fun v => v.literal.toList) ∧
          ∀ v ∈ s.members, v.typeName.toList = array.type) ∧
      HasShape (Value.unify given) s.shape ∧
      ∀ given', given.Perm given' → ∃ s', ofValues? given' = some s' ∧ s'.shape = s.shape := by
  obtain ⟨s, hs, hfor⟩ := exists_ofValues? hne
  refine ⟨s, hs, fun i hi => ?_, fun v hv => hfor.typeName_eq hv, ?_, hfor.hasShape, ?_⟩
  · rw [← length_unify given] at hi
    have hvalue := List.getElem?_eq_getElem hi
    have hselect := hfor.select_eq hvalue
    exact ⟨_, hvalue, hselect, fun property material hproperty hmaterial =>
      worth?_expression hproperty hmaterial hselect⟩
  · intro property line hproperty hline
    have hpos : 0 < (Value.unify given).length := by
      rw [length_unify]
      exact List.length_pos_iff.2 hne
    have hselect := hfor.select_eq (List.getElem?_eq_getElem hpos)
    refine ⟨_, constantArray?_of_declaration? hproperty hselect hline, rfl, ?_⟩
    intro v hv
    rw [hfor.typeName_eq hv]
  · intro given' hperm
    have hne' : given' ≠ [] := by
      rintro rfl
      exact hne hperm.eq_nil
    obtain ⟨s', hs', hfor'⟩ := exists_ofValues? hne'
    exact ⟨s', hs', hfor.hasShape.unique_of_perm hfor'.hasShape (perm_unify hperm)⟩

/-- Two values that alternate are told apart by a mask. -/
theorem select_of_alternating :
    ∃ s, ofValues? [.int 3, .int 5, .int 3, .int 5] = some s ∧ s.shape = .masked ∧
      s.select 3 = some (.int 5) := by
  obtain ⟨s, hs, hvalues, -, -, hshape, -⟩ :=
    select_of_ofValues? [.int 3, .int 5, .int 3, .int 5] (List.cons_ne_nil _ _)
  refine ⟨s, hs, hshape.2.2.2 (by decide), ?_⟩
  obtain ⟨v, hv, hselect, -⟩ := hvalues 3 (by decide)
  cases hv
  exact hselect

end Selection

end Variant

end ShaderMerge
