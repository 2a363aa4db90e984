import ShaderMerge.Proofs.Signature.Pieces
import ShaderMerge.Shader.Builder

/-!
# The kind of storage of a declared property

A line of the block of properties is read twice: by the builder of the model, which takes the
type of the property from the type word and the default, and by the writer of a variant, which
stores its values by the type word alone.  Both read the tags and the head of the line in the
same way, so a line that the builder accepts is a declaration for the writer too, of the same
name.  The kinds agree as well, except where the default of a number is a tuple: the property is
a vector for the builder, while its values are stored as the type word says.

`storage_of_propertyLine` is the main statement.  The writer asks for more of a line only in
that nothing behind the type word is a line feed, which no line of a file holds.
-/

namespace ShaderMerge

/-! ## What is read and what is left make up the text -/

namespace PropertyTag

variable {cs text body rest : List Char}

theorem append_of_body? (h : body? cs = some (body, rest)) : body ++ ']' :: rest = cs := by
  fun_induction body? cs generalizing body rest with
  | case1 => cases h
  | case2 cs =>
    cases h
    rfl
  | case3 cs nested after found _ ih =>
    obtain ⟨⟨inner, _⟩, hbody, heq⟩ := Option.map_eq_some_iff.1 h
    cases heq
    rw [← Text.append_of_until? found, ← ih hbody]
    simp
  | case4 => cases h
  | case5 c cs _ _ ih =>
    obtain ⟨⟨inner, _⟩, hbody, heq⟩ := Option.map_eq_some_iff.1 h
    cases heq
    rw [List.cons_append, ih hbody]

theorem append_of_read? (h : read? cs = some (text, body, rest)) : text ++ rest = cs := by
  unfold read? at h
  split at h
  · obtain ⟨⟨inner, after⟩, hbody, heq⟩ := Option.map_eq_some_iff.1 h
    cases heq
    rw [← append_of_body? hbody]
    simp [Text.takeWhile_append_skipBlanks]
  · cases h

theorem append_readAll (cs : List Char) : (readAll cs).1 ++ (readAll cs).2.2 = cs := by
  fun_induction readAll cs with
  | case1 cs text body rest found texts bodies left hread ih =>
    rw [hread] at ih
    dsimp only at ih ⊢
    rw [List.append_assoc, ih, append_of_read? found]
  | case2 cs => rfl

end PropertyTag

namespace PropertyHead

variable {cs text body rest : List Char}

theorem append_of_quoted? (h : quoted? cs = some (body, rest)) : body ++ '"' :: rest = cs := by
  fun_induction quoted? cs generalizing body rest with
  | case1 => cases h
  | case2 cs =>
    cases h
    rfl
  | case3 => cases h
  | case4 c cs _ ih =>
    obtain ⟨⟨inner, _⟩, hbody, heq⟩ := Option.map_eq_some_iff.1 h
    cases heq
    rw [List.cons_append, List.cons_append, ih hbody]
  | case5 => cases h
  | case6 c cs _ _ _ ih =>
    obtain ⟨⟨inner, _⟩, hbody, heq⟩ := Option.map_eq_some_iff.1 h
    cases heq
    rw [List.cons_append, ih hbody]

theorem append_of_mark? {c : Char} (h : mark? c cs = some (text, rest)) : text ++ rest = cs := by
  obtain ⟨after, hafter, heq⟩ := Option.bind_eq_some_iff.1 h
  cases heq
  rw [List.append_assoc, List.cons_append, Text.takeWhile_append_skipBlanks,
    ← Text.eq_of_afterChar? hafter, Text.takeWhile_append_skipBlanks]

/-- The pieces of the head of a declaration make up its text. -/
theorem text_of_ofText? {head : PropertyHead} (h : ofText? cs = some head) : head.text = cs := by
  simp only [ofText?, Option.bind_eq_bind, Option.bind_eq_some_iff] at h
  obtain ⟨⟨name, cs₁⟩, hname, ⟨opening, cs₂⟩, hopening, cs₃, hquote, ⟨shown, cs₄⟩, hshown,
    ⟨comma, cs₅⟩, hcomma, hword⟩ := h
  dsimp only at hopening hquote hcomma hword
  split at hword
  · cases hword
  · cases hword
    rw [← Text.append_of_name? hname, ← append_of_mark? hopening, Text.eq_of_afterChar? hquote,
      ← append_of_quoted? hshown, ← append_of_mark? hcomma]
    simp [text, separator]

end PropertyHead

/-! ## Types and kinds -/

/-- The kind of storage that fits the values of a type; the values of an unknown type have
none. -/
def PropertyType.kind? : PropertyType → Option PropertyKind
  | .float => some .float
  | .int => some .int
  | .color | .colorHDR | .vector => some .vector
  | .texture2D | .texture3D | .textureCube => some .texture
  | .texture2DArray | .textureCubeArray => some .textureArray
  | .unknown => none

/-- Whether the type word of a declaration is that of a number and its default is a tuple. -/
def PropertyHead.declaresTuple (head : PropertyHead) : Bool :=
  let word := Text.lowerLetters (String.ofList head.typeWord)
  (PropertyDefault.isFloatWord word || PropertyDefault.isIntWord word)
    && (Builder.defaultText? head.rest).any fun text => (Text.trimmed text).head? == some '('

namespace PropertyDefault

/-- The kind of a texture word is that of its type. -/
theorem ofTypeWord?_of_textureType? {word : String} {type : PropertyType}
    (h : textureType? (Text.lowerLetters word) = some type) :
    PropertyKind.ofTypeWord? word = type.kind? := by
  unfold textureType? at h
  unfold PropertyKind.ofTypeWord?
  split at h <;> cases h <;> simp only [*, PropertyType.kind?]

theorem ofTypeWord?_of_isFloatWord {word : String} (h : isFloatWord (Text.lowerLetters word)) :
    PropertyKind.ofTypeWord? word = some .float := by
  simp only [isFloatWord, Bool.or_eq_true, decide_eq_true_eq] at h
  unfold PropertyKind.ofTypeWord?
  obtain h | h := h <;> simp only [h]

theorem ofTypeWord?_of_isIntWord {word : String} (h : isIntWord (Text.lowerLetters word)) :
    PropertyKind.ofTypeWord? word = some .int := by
  simp only [isIntWord, Bool.or_eq_true, decide_eq_true_eq] at h
  unfold PropertyKind.ofTypeWord?
  obtain h | h := h <;> simp only [h]

/-- The kind of a type word fits the type that the declaration has, except for a number with a
tuple as its default. -/
theorem kind_of_ofDeclaration? {word : String} {text : List Char} {isHDR : Bool}
    {type : PropertyType} {default : String}
    (h : ofDeclaration? word text isHDR = some (type, default)) (htype : type ≠ .unknown) :
    ∃ kind, PropertyKind.ofTypeWord? word = some kind ∧
      if (isFloatWord (Text.lowerLetters word) || isIntWord (Text.lowerLetters word))
          && (Text.trimmed text).head? == some '(' then
        type = .vector ∧ (kind = .float ∨ kind = .int)
      else type.kind? = some kind := by
  simp only [ofDeclaration?] at h
  split at h
  · -- The word of a number: only here does the default say more than the word.
    next hnumber =>
    rw [hnumber, Bool.true_and]
    split at h
    · next htuple =>
      obtain ⟨_, -, heq⟩ := Option.map_eq_some_iff.1 h
      cases heq
      simp only [htuple, if_true, true_and]
      obtain hfloat | hint := Bool.or_eq_true_iff.1 hnumber
      · exact ⟨.float, ofTypeWord?_of_isFloatWord hfloat, .inl rfl⟩
      · exact ⟨.int, ofTypeWord?_of_isIntWord hint, .inr rfl⟩
    · next htuple =>
      obtain ⟨v, -, heq⟩ := Option.map_eq_some_iff.1 h
      simp only [htuple, if_false, Bool.false_eq_true]
      split at heq
      · next hfloat =>
        cases heq
        exact ⟨.float, ofTypeWord?_of_isFloatWord hfloat, rfl⟩
      · next hfloat =>
        cases heq
        have hint := (Bool.or_eq_true_iff.1 hnumber).resolve_left hfloat
        exact ⟨.int, ofTypeWord?_of_isIntWord hint, rfl⟩
  · next hnumber =>
    simp only [hnumber, Bool.false_and, Bool.false_eq_true, if_false]
    split at h
    · next hcolor =>
      obtain ⟨_, -, heq⟩ := Option.map_eq_some_iff.1 h
      cases heq
      refine ⟨.vector, by simp only [PropertyKind.ofTypeWord?, hcolor], ?_⟩
      cases isHDR <;> rfl
    · split at h
      · next hvector =>
        obtain ⟨_, -, heq⟩ := Option.map_eq_some_iff.1 h
        cases heq
        exact ⟨.vector, by simp only [PropertyKind.ofTypeWord?, hvector], rfl⟩
      · split at h
        · next texture htexture =>
          cases h
          rw [ofTypeWord?_of_textureType? htexture]
          unfold textureType? at htexture
          split at htexture <;> cases htexture <;> exact ⟨_, rfl, rfl⟩
        · cases h
          exact absurd rfl htype

end PropertyDefault

/-! ## The line as both read it -/

namespace Builder

/-- A declaration that the builder accepts, in the pieces it is read by. -/
theorem property?_eq_some {tags : List String} {cs : List Char} {p : Property}
    (h : property? tags cs = some p) :
    ∃ head text, PropertyHead.ofText? cs = some head ∧ defaultText? head.rest = some text ∧
      PropertyDefault.ofDeclaration? (String.ofList head.typeWord) text (tags.contains "hdr")
        = some (p.type, p.default) ∧ String.ofList head.name = p.name := by
  simp only [property?, Option.bind_eq_bind, Option.bind_eq_some_iff] at h
  obtain ⟨head, hhead, text, htext, ⟨type, default⟩, htype, heq⟩ := h
  cases heq
  exact ⟨head, text, hhead, htext, htype, rfl⟩

theorem withCompanion_eq_cons (p : Property) : ∃ rest, withCompanion p = p :: rest := by
  unfold withCompanion
  split
  · exact ⟨_, rfl⟩
  · exact ⟨_, rfl⟩

/-- The first property that a line adds is the one it declares behind its tags. -/
theorem property?_of_propertyLine {b b' : Builder} {line : String} {p : Property}
    {companions : List Property} (hread : b.propertyLine line = .ok b')
    (hnew : b'.properties = b.properties ++ p :: companions) :
    ∃ tags, property? tags (PropertyTag.readAll line.toList).2.2 = some p := by
  simp only [propertyLine] at hread
  split at hread
  · cases hread
    simp at hnew
  · split at hread
    · cases hread
    · next q hq =>
      cases hread
      obtain ⟨rest, hrest⟩ := withCompanion_eq_cons q
      rw [hrest] at hnew
      cases List.append_cancel_left hnew
      exact ⟨_, hq⟩

/-- The type of the first property. -/
def firstType? (b : Builder) : Option PropertyType := b.properties.head?.map Property.type

theorem exists_of_firstType {x : Except ShaderError Builder} {type : PropertyType}
    (h : x.toOption.map firstType? = some (some type)) :
    ∃ b p companions, x = .ok b ∧ b.properties = p :: companions ∧ p.type = type := by
  cases x with
  | error e => cases h
  | ok b =>
    obtain ⟨p, hp, htype⟩ := Option.map_eq_some_iff.1 (Option.some_inj.1 h)
    obtain ⟨companions, hnew⟩ := List.head?_eq_some_iff.1 hp
    exact ⟨b, p, companions, rfl, hnew, htype⟩

end Builder

/-- Behind its tags, a line of a file that has the head of a declaration is one. -/
theorem PropertyLine.ofText?_eq_some {line : List Char} {head : PropertyHead}
    (hline : '\n' ∉ line)
    (hhead : PropertyHead.ofText? (PropertyTag.readAll line).2.2 = some head) :
    PropertyLine.ofText? line = some ⟨(PropertyTag.readAll line).1, head⟩ := by
  have hrest : '\n' ∉ head.rest := by
    intro hmem
    rw [← PropertyTag.append_readAll line, ← PropertyHead.text_of_ofText? hhead] at hline
    exact hline (List.mem_append_right _ (List.mem_append_right _ hmem))
  simp [PropertyLine.ofText?, hhead, hrest]

/-- **The two readings of a declared property agree.**  Let a line of the block of properties
make the builder add a property of a known type.  Then the line is a declaration for the writer
too, of the same name and with a kind of storage: the kind that fits the type, unless a number
is given a tuple.  Then the type is a vector, and the kind is that of a number. -/
theorem storage_of_propertyLine {b b' : Builder} {line : String} {p : Property}
    {companions : List Property} (hline : '\n' ∉ line.toList)
    (hread : b.propertyLine line = .ok b')
    (hnew : b'.properties = b.properties ++ p :: companions) (htype : p.type ≠ .unknown) :
    ∃ declaration kind, PropertyLine.ofText? line.toList = some declaration ∧
      String.ofList declaration.head.name = p.name ∧
      PropertyKind.ofTypeWord? (String.ofList declaration.head.typeWord) = some kind ∧
      if declaration.head.declaresTuple then p.type = .vector ∧ (kind = .float ∨ kind = .int)
      else p.type.kind? = some kind := by
  obtain ⟨tags, hp⟩ := Builder.property?_of_propertyLine hread hnew
  obtain ⟨head, text, hhead, htext, hdeclared, hname⟩ := Builder.property?_eq_some hp
  obtain ⟨kind, hkind, hfits⟩ := PropertyDefault.kind_of_ofDeclaration? hdeclared htype
  refine ⟨_, kind, PropertyLine.ofText?_eq_some hline hhead, hname, hkind, ?_⟩
  simpa only [PropertyHead.declaresTuple, htext, Option.any_some] using hfits

/-- A texture is stored as one, and so is the texture that the builder takes it for. -/
theorem storage_texture :
    ∃ b' p companions,
      Builder.new.propertyLine "[Gamma] _Main (\"Main\", 2D) = \"white\"" = .ok b' ∧
      b'.properties = p :: companions ∧ p.type = .texture2D ∧
      ∃ declaration kind,
        PropertyLine.ofText? "[Gamma] _Main (\"Main\", 2D) = \"white\"".toList
          = some declaration ∧
        String.ofList declaration.head.name = p.name ∧
        PropertyKind.ofTypeWord? (String.ofList declaration.head.typeWord) = some kind ∧
        if declaration.head.declaresTuple then p.type = .vector ∧ (kind = .float ∨ kind = .int)
        else p.type.kind? = some kind := by
  have hcheck : (Builder.new.propertyLine "[Gamma] _Main (\"Main\", 2D) = \"white\"").toOption.map
      Builder.firstType? = some (some .texture2D) := by decide +kernel
  obtain ⟨b', p, companions, hread, hnew, htype⟩ := Builder.exists_of_firstType hcheck
  exact ⟨b', p, companions, hread, hnew, htype,
    storage_of_propertyLine (by decide) hread hnew (by simp [htype])⟩

/-- **A number with a tuple as its default is stored as a number.**  The builder takes it for a
vector, for which that kind does not fit. -/
theorem storage_of_tuple :
    ¬ ∀ (b b' : Builder) (line : String) (p : Property) (companions : List Property),
      '\n' ∉ line.toList → b.propertyLine line = .ok b' →
      b'.properties = b.properties ++ p :: companions → p.type ≠ .unknown →
      ∃ declaration kind, PropertyLine.ofText? line.toList = some declaration ∧
        String.ofList declaration.head.name = p.name ∧
        PropertyKind.ofTypeWord? (String.ofList declaration.head.typeWord) = some kind ∧
        p.type.kind? = some kind := by
  -- The writer reads a kind off the word alone, so one line where the types differ is enough.
  intro hagree
  have hcheck : (Builder.new.propertyLine "_A (\"A\", Float) = (1, 1, 1, 1)").toOption.map
      Builder.firstType? = some (some .vector) := by decide +kernel
  obtain ⟨b', p, companions, hread, hnew, htype⟩ := Builder.exists_of_firstType hcheck
  obtain ⟨declaration, kind, hdeclaration, -, hkind, hfits⟩ :=
    hagree .new b' _ p companions (by decide) hread hnew (by simp [htype])
  have hword : (PropertyLine.ofText? "_A (\"A\", Float) = (1, 1, 1, 1)".toList).map
      (fun declaration => PropertyKind.ofTypeWord? (String.ofList declaration.head.typeWord))
        = some (some .float) := by
    decide +kernel
  rw [hdeclaration, Option.map_some, hkind] at hword
  cases hword
  rw [htype] at hfits
  cases hfits

end ShaderMerge
