import ShaderMerge.Proofs.Number.Integers
import ShaderMerge.Proofs.Shader.PropertyKinds
import ShaderMerge.Proofs.Text.Words
import ShaderMerge.Proofs.Variant.SelectionCode

/-!
# Defaults that are read back

The default of a property is stored as a literal of shader code, and the registers of animated
properties read it back.  Finite numbers come back as they were stored, bit by bit.  A number that is
not finite is spelled by its bits, which the reader does not know: it comes back as zero.  Integers come
back exactly, except for the greatest one, which is no number of the format.  `default_of_propertyLine`
says so for every declaration of a number or a vector.
-/

namespace ShaderMerge

open Variant.Selection (isNumberChar toList_vectorLiteral)

/-! ## Values that are read back -/

/-- A number with zero in the place of one that is not finite. -/
def Binary32.orZero (v : Binary32) : Binary32 := if v.isFinite then v else .zero

namespace Value

/-- What the literal of a value is read as. -/
def readBack : Value → Vector4
  | float v => .splat v.orZero
  | int n => .splat (.ofInt n.toInt)
  | vector v => .ofComponents (v.components.map Binary32.orZero)

/-- Whether four components are a value, a number standing in all of them. -/
def IsReadAs : Value → Vector4 → Prop
  | float v, c => c = .splat v
  | int n, c => ∃ w : Binary32, c = .splat w ∧ w.isFinite = true ∧ w.value = n.toInt
  | vector v, c => c = v

/-- Whether the numbers of a value are numbers of the format and finite. -/
def IsKept : Value → Prop
  | float v => v.isFinite = true
  | int n => n ≠ Int32.maxValue
  | vector v => ∀ c ∈ v.components, c.isFinite = true

end Value

/-! ## Literals of numbers -/

section Literals

variable {v : Binary32} {gap : List Char}

theorem floatLiteral_of_isFinite (h : v.isFinite = true) :
    floatLiteral v = NumberLayout.literal.text v := by
  obtain ⟨hnan, hinf⟩ := Binary32.isFinite_iff.1 h
  rw [floatLiteral, hnan, hinf]
  rfl

/-- The literals of numbers that are not finite. -/
def bitLiterals : List String := ["asfloat(0x7fc00000)", "asfloat(0xff800000)", "asfloat(0x7f800000)"]

theorem floatLiteral_of_not_isFinite (h : v.isFinite = false) :
    floatLiteral v ∈ bitLiterals := by
  rw [floatLiteral]
  by_cases hnan : v.isNaN = true
  · rw [if_pos hnan]
    decide
  · have hinf : v.isInfinite = true := by
      by_contra hinf
      rw [Binary32.isFinite_iff.2 ⟨by simpa using hnan, by simpa using hinf⟩] at h
      cases h
    rw [if_neg hnan, if_pos hinf]
    split
    · decide
    · decide

/-- No sign of a number is a blank. -/
theorem isBlank_of_isNumberChar {c : Char} (h : isNumberChar c = true) : Text.isBlank c = false := by
  simp only [isNumberChar, Bool.or_eq_true, beq_iff_eq] at h
  obtain ((hdigit | rfl) | rfl) | rfl := h
  · by_contra hblank
    have hname := Text.isNameChar_of_isBlank (Bool.not_eq_false _ ▸ hblank)
    rw [Text.isNameChar, Char.isAlphanum, hdigit, Bool.or_true, Bool.true_or] at hname
    cases hname
  all_goals decide

/-- A literal of a number has neither blanks nor commas. -/
theorem floatLiteral_chars (v : Binary32) :
    (∀ c ∈ (floatLiteral v).toList, Text.isBlank c = false) ∧ ',' ∉ (floatLiteral v).toList := by
  cases h : v.isFinite with
  | true =>
    obtain ⟨hnan, hinf⟩ := Binary32.isFinite_iff.1 h
    have hchars : ∀ c ∈ (NumberLayout.literal.text v).toList, isNumberChar c = true :=
      fun c => Variant.Selection.isNumberChar_of_mem_text hnan hinf
    rw [floatLiteral_of_isFinite h]
    exact ⟨fun c hc => isBlank_of_isNumberChar (hchars c hc),
      fun hmem => absurd (hchars ',' hmem) (by decide)⟩
  | false =>
    have hall : ∀ text ∈ bitLiterals,
        text.toList.all (fun c => !Text.isBlank c) = true ∧ ',' ∉ text.toList := by decide
    obtain ⟨hblanks, hcomma⟩ := hall _ (floatLiteral_of_not_isFinite h)
    exact ⟨fun c hc => by simpa using List.all_eq_true.1 hblanks c hc, hcomma⟩

/-- **A literal of a number is read as the number**, or not at all if that is not finite. -/
theorem number?_floatLiteral (hgap : Text.IsBlanks gap) (v : Binary32) :
    (PropertyDefault.number? (gap ++ (floatLiteral v).toList)).getD .zero = v.orZero := by
  rw [PropertyDefault.number?, Text.trimmed_gap_append hgap,
    Text.trimmed_of_forall (floatLiteral_chars v).1, Binary32.orZero]
  cases h : v.isFinite with
  | true =>
    rw [floatLiteral_of_isFinite h, Binary32.ofText?_text h]
    rfl
  | false =>
    have hall : ∀ text ∈ bitLiterals,
        Binary32.ofText? text.toList = none := by decide
    rw [hall _ (floatLiteral_of_not_isFinite h)]
    rfl

/-! ## Literals of values -/

namespace PropertyDefault

/-- A text without blanks that is no vector is read as one number. -/
theorem components_of_number {text : String} (hblanks : ∀ c ∈ text.toList, Text.isBlank c = false)
    (hvector : Text.after? "float4(" text.toList = none) :
    components text = .splat ((number? text.toList).getD .zero) := by
  rw [components, Text.trimmed_of_forall hblanks]
  simp only [hvector]
  rfl

theorem after?_eq_none_of_notMem {cs : List Char} (h : 'f' ∉ cs) :
    Text.after? "float4(" cs = none := by
  rw [Option.eq_none_iff_forall_ne_some]
  intro rest hrest
  rw [Text.after?_eq_some_iff.1 hrest] at h
  exact h (List.mem_append_left rest (by decide))

theorem components_floatLiteral (v : Binary32) :
    components (floatLiteral v) = .splat v.orZero := by
  have hvector : Text.after? "float4(" (floatLiteral v).toList = none := by
    cases h : v.isFinite with
    | true =>
      obtain ⟨hnan, hinf⟩ := Binary32.isFinite_iff.1 h
      rw [floatLiteral_of_isFinite h]
      exact after?_eq_none_of_notMem fun hmem =>
        absurd (Variant.Selection.isNumberChar_of_mem_text hnan hinf hmem) (by decide)
    | false =>
      have hall : ∀ text ∈ bitLiterals,
          Text.after? "float4(" text.toList = none := by decide
      exact hall _ (floatLiteral_of_not_isFinite h)
  have hread := @number?_floatLiteral [] (List.forall_mem_nil _) v
  rw [components_of_number (floatLiteral_chars v).1 hvector]
  exact congrArg Vector4.splat hread

theorem components_toString (n : Int32) :
    components (toString n.toInt) = .splat (.ofInt n.toInt) := by
  have hchars : ∀ c ∈ (toString n.toInt).toList, isNumberChar c = true :=
    fun c => Variant.Selection.isNumberChar_of_mem_toString
  have hblanks : ∀ c ∈ (toString n.toInt).toList, Text.isBlank c = false :=
    fun c hc => isBlank_of_isNumberChar (hchars c hc)
  rw [components_of_number hblanks (after?_eq_none_of_notMem fun hmem =>
    absurd (hchars 'f' hmem) (by decide)), number?, Text.trimmed_of_forall hblanks,
    Binary32.ofText?_toString]
  rfl

/-- Texts without commas are the pieces of what they make with commas between them. -/
theorem splitWhere_intercalate {first : List Char} {others : List (List Char)}
    (h : ∀ piece ∈ first :: others, ',' ∉ piece) :
    Text.splitWhere (· == ',') (List.intercalate [',', ' '] (first :: others))
      = first :: others.map (' ' :: ·) := by
  have hwhole : ∀ {piece : List Char}, ',' ∉ piece → Text.splitWhere (· == ',') piece = [piece] := by
    intro piece hpiece
    have hall : ∀ c ∈ piece, (c == ',') = false := fun c hc => by
      rw [beq_eq_false_iff_ne]
      rintro rfl
      exact hpiece hc
    have happend := Text.splitWhere_append_of_forall hall []
    rw [List.append_nil] at happend
    rw [happend]
    simp [Text.splitWhere]
  induction others generalizing first with
  | nil => rw [List.intercalate_singleton, hwhole (h first List.mem_cons_self), List.map_nil]
  | cons next others ih =>
    obtain ⟨hfirst, hothers⟩ := List.forall_mem_cons.1 h
    obtain ⟨hnext, hothers⟩ := List.forall_mem_cons.1 hothers
    have hspaced : ∀ piece ∈ (' ' :: next) :: others, ',' ∉ piece :=
      List.forall_mem_cons.2 ⟨by simpa using hnext, hothers⟩
    have hspace : [' '] ++ List.intercalate [',', ' '] (next :: others)
        = List.intercalate [',', ' '] ((' ' :: next) :: others) := by
      cases others with
      | nil => rfl
      | cons _ _ => rw [List.intercalate_cons_cons, List.intercalate_cons_cons]; rfl
    have htail : List.intercalate [',', ' '] (first :: next :: others)
        = first ++ ',' :: List.intercalate [',', ' '] ((' ' :: next) :: others) := by
      rw [List.intercalate_cons_cons, ← hspace]
      simp
    rw [htail, Text.splitWhere_append_cons (by rfl), hwhole hfirst, ih hspaced]
    rfl

theorem components_vectorLiteral (v : Vector4) : components (vectorLiteral v)
    = .ofComponents (v.components.map Binary32.orZero) := by
  have htrimmed : Text.trimmed (vectorLiteral v).toList = (vectorLiteral v).toList := by
    rw [toList_vectorLiteral]
    refine Text.trimmed_of_ends ?_ ?_
    · rintro _ ⟨⟩
      decide
    · rw [← List.append_assoc, List.getLast?_concat]
      rintro _ ⟨⟩
      decide
  have hpieces := @splitWhere_intercalate (floatLiteral v.x).toList
    [(floatLiteral v.y).toList, (floatLiteral v.z).toList, (floatLiteral v.w).toList] <| by
      simp only [List.forall_mem_cons, (floatLiteral_chars _).2, not_false_eq_true, true_and]
      exact List.forall_mem_nil _
  have hnumber : ∀ c, (number? (floatLiteral c).toList).getD .zero = c.orZero :=
    fun c => @number?_floatLiteral [] (List.forall_mem_nil _) c
  have hspaced : ∀ c, (number? (' ' :: (floatLiteral c).toList)).getD .zero = c.orZero :=
    fun c => number?_floatLiteral (List.forall_mem_singleton.2 (by decide)) c
  have hafter : Text.after? "float4(" (vectorLiteral v).toList = some
      (List.intercalate [',', ' '] (v.components.map fun c => (floatLiteral c).toList) ++ [')']) :=
    Text.after?_eq_some_iff.2 (toList_vectorLiteral v)
  rw [components, htrimmed]
  simp only [hafter, Option.bind_eq_bind, Option.bind_some, List.reverse_append, List.reverse_singleton,
    List.singleton_append, List.reverse_reverse, Vector4.components, List.map_cons, List.map_nil,
    hpieces, hnumber, hspaced]

/-- **The literal of a value is read as the value with zeros for what is not finite.** -/
theorem components_literal (value : Value) : components value.literal = value.readBack := by
  cases value with
  | float v => exact components_floatLiteral v
  | int n => exact components_toString n
  | vector v => exact components_vectorLiteral v

end PropertyDefault

end Literals

/-! ## Values that come back -/

theorem Binary32.orZero_eq_self_iff {v : Binary32} : v.orZero = v ↔ v.isFinite = true := by
  rw [orZero]
  cases h : v.isFinite with
  | true => exact iff_of_true rfl rfl
  | false =>
    refine iff_of_false (fun hzero => ?_) Bool.false_ne_true
    have hfinite : Binary32.zero.isFinite = true := by decide
    rw [← hzero, if_neg Bool.false_ne_true, hfinite] at h
    cases h

namespace Value

theorem isReadAs_float_iff (v : Binary32) :
    (float v).IsReadAs (float v).readBack ↔ (float v).IsKept :=
  ⟨fun h => Binary32.orZero_eq_self_iff.1 (congrArg Vector4.x h),
    fun h => congrArg Vector4.splat (Binary32.orZero_eq_self_iff.2 h)⟩

theorem isReadAs_vector_iff (v : Vector4) :
    (vector v).IsReadAs (vector v).readBack ↔ (vector v).IsKept := by
  have hback : (vector v).readBack = ⟨v.x.orZero, v.y.orZero, v.z.orZero, v.w.orZero⟩ := rfl
  rw [hback, IsReadAs, IsKept, Vector4.mk.injEq]
  simp [Binary32.orZero_eq_self_iff, Vector4.components]

/-- An integer that is the integer part of a number comes back, unless it is the greatest one. -/
theorem isReadAs_int_iff (v : Binary32) :
    (int v.toInt32).IsReadAs (int v.toInt32).readBack ↔ (int v.toInt32).IsKept := by
  constructor
  · rintro ⟨w, hw, -, hvalue⟩ hmax
    obtain rfl : Binary32.ofInt v.toInt32.toInt = w := congrArg Vector4.x hw
    rw [hmax, Binary32.value_ofInt_maxValue] at hvalue
    revert hvalue
    decide +kernel
  · intro hkept
    refine ⟨_, rfl, ?_⟩
    obtain hzero | hmax | hwhole := Binary32.isWhole_toInt32 v
    · rw [hzero]
      refine ⟨by decide, ?_⟩
      have hparts : (Binary32.ofInt 0).parts = (0, -149) := by decide
      simp [Binary32.value, hparts]
    · exact absurd hmax hkept
    · exact Binary32.value_ofInt hwhole

end Value

/-! ## Declarations -/

namespace PropertyDefault

/-- The value that a declaration of a number or a vector gives. -/
def value? (typeWord : String) (text : List Char) : Option Value :=
  let text := Text.trimmed text
  let word := Text.lowerLetters typeWord
  let vector := (tuple? text).map Value.vector
  if isFloatWord word || isIntWord word then
    if text.head? == some '(' then vector
    else
      (Binary32.ofText? text).map fun v => if isFloatWord word then .float v else .int v.toInt32
  else if word = "color" || word = "vector" then vector
  else none

/-- **The default of a number or a vector is the literal of the value that is declared.** -/
theorem exists_value_of_ofDeclaration? {word default : String} {text : List Char} {isHDR : Bool}
    {type : PropertyType} (h : ofDeclaration? word text isHDR = some (type, default))
    (htype : type.isScalar = true ∨ type.isVector = true) :
    ∃ value, value? word text = some value ∧ default = value.literal ∧
      type.isVector = value.isVector ∧ ∀ n, value = .int n → ∃ v : Binary32, n = v.toInt32 := by
  simp only [ofDeclaration?] at h
  simp only [value?]
  split at h
  · next hnumber =>
    rw [if_pos hnumber]
    split at h
    · next htuple =>
      obtain ⟨_, hvector, heq⟩ := Option.map_eq_some_iff.1 h
      obtain ⟨v, hv, rfl⟩ := Option.map_eq_some_iff.1 hvector
      cases heq
      rw [if_pos htuple, hv]
      exact ⟨_, rfl, rfl, rfl, by rintro _ ⟨⟩⟩
    · next htuple =>
      obtain ⟨v, hv, heq⟩ := Option.map_eq_some_iff.1 h
      rw [if_neg htuple, hv]
      split at heq
      · next hfloat =>
        cases heq
        exact ⟨.float v, by rw [Option.map_some, if_pos hfloat], rfl, rfl, by rintro _ ⟨⟩⟩
      · next hfloat =>
        cases heq
        exact ⟨.int v.toInt32, by rw [Option.map_some, if_neg hfloat], rfl, rfl,
          fun n hn => ⟨v, (Value.int.inj hn).symm⟩⟩
  · next hnumber =>
    rw [if_neg hnumber]
    split at h
    · next hcolor =>
      obtain ⟨_, hvector, heq⟩ := Option.map_eq_some_iff.1 h
      obtain ⟨v, hv, rfl⟩ := Option.map_eq_some_iff.1 hvector
      cases heq
      refine ⟨.vector v, by simp [hcolor, hv], rfl, ?_, by rintro _ ⟨⟩⟩
      cases isHDR <;> rfl
    · split at h
      · next hvector =>
        obtain ⟨_, htuple, heq⟩ := Option.map_eq_some_iff.1 h
        obtain ⟨v, hv, rfl⟩ := Option.map_eq_some_iff.1 htuple
        cases heq
        exact ⟨.vector v, by simp [hvector, hv], rfl, rfl, by rintro _ ⟨⟩⟩
      · -- The other words are those of textures and unknown ones.
        have hother : type.isScalar = false ∧ type.isVector = false := by
          split at h
          · next htexture =>
            cases h
            unfold textureType? at htexture
            split at htexture <;> cases htexture <;> exact ⟨rfl, rfl⟩
          · cases h
            exact ⟨rfl, rfl⟩
        rw [hother.1, hother.2, or_self] at htype
        cases htype

end PropertyDefault

/-- **Which defaults survive.**  Let a line of the block of properties make the builder add a property
of a number or a vector.  Its default is the literal of the value that the line declares.  That is read
as the value itself exactly if the value is kept: if all of its floats are finite, and its integer is
not the greatest one. -/
theorem default_of_propertyLine {b b' : Builder} {line : String} {p : Property}
    {companions : List Property} (hread : b.propertyLine line = .ok b')
    (hnew : b'.properties = b.properties ++ p :: companions)
    (htype : p.type.isScalar = true ∨ p.type.isVector = true) :
    ∃ head text value, PropertyHead.ofText? (PropertyTag.readAll line.toList).2.2 = some head ∧
      Builder.defaultText? head.rest = some text ∧
      PropertyDefault.value? (String.ofList head.typeWord) text = some value ∧
      p.default = value.literal ∧ p.type.isVector = value.isVector ∧
      PropertyDefault.components p.default = value.readBack ∧
      (value.IsReadAs (PropertyDefault.components p.default) ↔ value.IsKept) := by
  obtain ⟨tags, hp⟩ := Builder.property?_of_propertyLine hread hnew
  obtain ⟨head, text, hhead, htext, hdeclared, -⟩ := Builder.property?_eq_some hp
  obtain ⟨value, hvalue, hdefault, hvector, hint⟩ :=
    PropertyDefault.exists_value_of_ofDeclaration? hdeclared htype
  have hback : PropertyDefault.components p.default = value.readBack := by
    rw [hdefault, PropertyDefault.components_literal]
  refine ⟨head, text, value, hhead, htext, hvalue, hdefault, hvector, hback, ?_⟩
  rw [hback]
  cases value with
  | float v => exact Value.isReadAs_float_iff v
  | int n =>
    obtain ⟨v, rfl⟩ := hint n rfl
    exact Value.isReadAs_int_iff v
  | vector v => exact Value.isReadAs_vector_iff v

/-- A declaration may give a number that is not finite. -/
theorem default_infinite :
    ∃ b' p companions, Builder.new.propertyLine "_Far (\"Far\", Float) = inf" = .ok b' ∧
      b'.properties = p :: companions ∧ p.type = .float ∧
      ∃ head text value,
        PropertyHead.ofText? (PropertyTag.readAll "_Far (\"Far\", Float) = inf".toList).2.2 = some head ∧
        Builder.defaultText? head.rest = some text ∧
        PropertyDefault.value? (String.ofList head.typeWord) text = some value ∧
        p.default = value.literal ∧ p.type.isVector = value.isVector ∧
        PropertyDefault.components p.default = value.readBack ∧
        (value.IsReadAs (PropertyDefault.components p.default) ↔ value.IsKept) := by
  have hcheck : (Builder.new.propertyLine "_Far (\"Far\", Float) = inf").toOption.map
      Builder.firstType? = some (some .float) := by decide +kernel
  obtain ⟨b', p, companions, hread, hnew, htype⟩ := Builder.exists_of_firstType hcheck
  exact ⟨b', p, companions, hread, hnew, htype,
    default_of_propertyLine hread hnew (by simp [htype, PropertyType.isScalar])⟩

end ShaderMerge
