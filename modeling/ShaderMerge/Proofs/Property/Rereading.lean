import ShaderMerge.Proofs.Shader.PropertyKinds
import ShaderMerge.Proofs.Signature.Pieces
import ShaderMerge.Proofs.Text.Pieces
import ShaderMerge.Property.Line

/-!
# Reading a declaration back

A line that declares a property is read in pieces, and a line that is written is put together from
such pieces.  The pieces of `PropertyLine.IsRead` are read back from their text, one by one and
whatever stands behind them (`PropertyLine.ofText?_text`).  All lines that can be read are made of
such pieces, and they remain so when a texture becomes a texture array: of its declaration, only the
name and the type word are read otherwise (`PropertyLine.exists_isArrayOf`).
-/

namespace ShaderMerge

open Text (IsName IsBlanks Stops isBlank isNameChar)

/-! ## Tags -/

namespace PropertyTag

variable {cs text texts body rest tail : List Char} {bodies : List (List Char)}

theorem body?_append (h : body? cs = some (body, rest)) (tail : List Char) :
    body? (body ++ ']' :: tail) = some (body, tail) := by
  fun_induction body? cs generalizing body rest with
  | case1 => cases h
  | case2 cs =>
    cases h
    rw [List.nil_append, body?.eq_def]
    rfl
  | case3 cs nested after found _ ih =>
    obtain ⟨⟨inner, _⟩, hbody, heq⟩ := Option.map_eq_some_iff.1 h
    cases heq
    have hnested := Text.until?_append (Text.notMem_of_until? found) (inner ++ ']' :: tail)
    rw [List.cons_append, List.cons_append, List.append_assoc, List.cons_append, body?.eq_def]
    simp only [if_neg (by decide : ¬ '[' = ']'), if_true]
    split
    · rename_i heq
      rw [hnested] at heq
      cases heq
      rw [ih hbody]
      simp
    · rename_i heq
      rw [hnested] at heq
      cases heq
  | case4 => cases h
  | case5 c cs hclose hopen ih =>
    obtain ⟨⟨inner, _⟩, hbody, heq⟩ := Option.map_eq_some_iff.1 h
    cases heq
    rw [List.cons_append, body?.eq_def]
    simp only [if_neg hclose, if_neg hopen, ih hbody]
    rfl

/-- A tag is read back with the blanks behind it. -/
theorem read?_append (h : read? cs = some (text, body, rest)) (htail : Stops isBlank tail) :
    read? (text ++ tail) = some (text, body, tail) := by
  unfold read? at h
  split at h
  · obtain ⟨⟨inner, after⟩, hbody, heq⟩ := Option.map_eq_some_iff.1 h
    cases heq
    have hblanks : IsBlanks (after.takeWhile isBlank) := fun c hc => List.mem_takeWhile_imp hc
    obtain ⟨htake, hdrop⟩ := Text.takeWhile_append_of_stops hblanks htail
    have hread := body?_append hbody (after.takeWhile isBlank ++ tail)
    simp only [List.cons_append, List.append_assoc, read?, hread, Option.map_some]
    rw [htake, Text.skipBlanks, hdrop]
  · cases h

/-- Tags start with a bracket, if there are any. -/
theorem readAll_eq_nil_or (cs : List Char) :
    (readAll cs).1 = [] ∨ ∃ rest, (readAll cs).1 = '[' :: rest := by
  rw [readAll.eq_def]
  split
  · rename_i text body rest found
    right
    unfold read? at found
    split at found
    · obtain ⟨_, -, heq⟩ := Option.map_eq_some_iff.1 found
      cases heq
      exact ⟨_, rfl⟩
    · cases found
  · exact .inl rfl

/-- Tags are read back in front of a text that starts neither with a blank nor with a tag. -/
theorem readAll_append (cs : List Char) (hblank : Stops isBlank tail)
    (htag : Stops (· == '[') tail) :
    readAll ((readAll cs).1 ++ tail) = ((readAll cs).1, (readAll cs).2.1, tail) := by
  fun_induction readAll cs with
  | case1 cs text body rest found texts bodies left hread ih =>
    rw [hread] at ih
    -- The next tag starts with a bracket, so the blanks behind this one end there.
    have hstops : Stops isBlank (texts ++ tail) := by
      rcases readAll_eq_nil_or rest with hnil | ⟨more, hcons⟩
      · rw [hread] at hnil
        dsimp only at hnil
        rw [hnil]
        exact hblank
      · rw [hread] at hcons
        dsimp only at hcons
        rw [hcons]
        rintro c ⟨⟩
        decide
    have hfirst := read?_append found hstops
    rw [readAll.eq_def]
    dsimp only at ih ⊢
    rw [List.append_assoc]
    split
    · rename_i heq
      rw [hfirst] at heq
      cases heq
      rw [ih]
    · rename_i heq
      rw [hfirst] at heq
      cases heq
  | case2 cs =>
    have hnone : read? tail = none := by
      unfold read?
      split
      · exact absurd (htag '[' rfl) (by decide)
      · rfl
    rw [List.nil_append, readAll.eq_def]
    split
    · rename_i heq
      rw [hnone] at heq
      cases heq
    · rfl

end PropertyTag

/-! ## From the name to the type word -/

namespace PropertyHead

variable {cs body rest : List Char} {head : PropertyHead}

theorem quoted?_append (h : quoted? cs = some (body, rest)) (tail : List Char) :
    quoted? (body ++ '"' :: tail) = some (body, tail) := by
  fun_induction quoted? cs generalizing body rest with
  | case1 => cases h
  | case2 cs =>
    cases h
    rfl
  | case3 => cases h
  | case4 c cs hfeed ih =>
    obtain ⟨⟨inner, _⟩, hbody, heq⟩ := Option.map_eq_some_iff.1 h
    cases heq
    simp only [List.cons_append, quoted?, if_neg hfeed, ih hbody]
    rfl
  | case5 => cases h
  | case6 c cs hquote hescape hslash ih =>
    obtain ⟨⟨inner, _⟩, hbody, heq⟩ := Option.map_eq_some_iff.1 h
    cases heq
    rw [List.cons_append, quoted?.eq_4 _ _ hquote, if_neg hslash, ih hbody]
    · rfl
    · intro d more hc _
      exact hslash hc

/-- A text without quotes and backslashes is a display name. -/
theorem quoted?_of_plain (hquote : '"' ∉ body) (hslash : '\\' ∉ body) (tail : List Char) :
    quoted? (body ++ '"' :: tail) = some (body, tail) := by
  induction body with
  | nil => rfl
  | cons c body ih =>
    rw [List.mem_cons, not_or] at hquote hslash
    have hc : ¬ c = '\\' := fun heq => hslash.1 heq.symm
    rw [List.cons_append, quoted?.eq_4 _ _ (fun heq => hquote.1 heq.symm), if_neg hc,
      ih hquote.2 hslash.2]
    · rfl
    · intro d more heq _
      exact hc heq

/-- A character between blanks is read back in front of a text that does not start with a blank. -/
theorem mark?_append {c : Char} {before behind tail : List Char} (hc : isBlank c = false)
    (hbefore : IsBlanks before) (hbehind : IsBlanks behind) (htail : Stops isBlank tail) :
    mark? c (before ++ c :: behind ++ tail) = some (before ++ c :: behind, tail) := by
  have hfirst : Stops isBlank (c :: (behind ++ tail)) := by
    rintro d ⟨⟩
    exact hc
  obtain ⟨htake, hdrop⟩ := Text.takeWhile_append_of_stops hbefore hfirst
  obtain ⟨htake', hdrop'⟩ := Text.takeWhile_append_of_stops hbehind htail
  rw [List.append_assoc, List.cons_append, mark?, Text.skipBlanks, hdrop, htake]
  simp only [Text.afterChar?, if_true, Option.bind_eq_bind, Option.bind_some, Text.skipBlanks,
    htake', hdrop']
  rfl

/-- The pieces of a head that can be read. -/
structure IsRead (head : PropertyHead) : Prop where
  name : IsName head.name
  opening : ∃ before behind, IsBlanks before ∧ IsBlanks behind ∧
    head.opening = before ++ '(' :: behind ++ ['"']
  displayName : ∀ tail, quoted? (head.displayName ++ '"' :: tail) = some (head.displayName, tail)
  gap : ∃ before behind, IsBlanks before ∧ IsBlanks behind ∧
    head.gap = '"' :: (before ++ ',' :: behind)
  typeWord : head.typeWord ≠ [] ∧ ∀ c ∈ head.typeWord, c.isAlphanum = true
  rest : Stops Char.isAlphanum head.rest

theorem mark?_eq_some {c : Char} {text : List Char} (h : mark? c cs = some (text, rest)) :
    ∃ before behind, IsBlanks before ∧ IsBlanks behind ∧ text = before ++ c :: behind := by
  obtain ⟨after, -, heq⟩ := Option.bind_eq_some_iff.1 h
  cases heq
  exact ⟨_, _, fun d hd => List.mem_takeWhile_imp hd, fun d hd => List.mem_takeWhile_imp hd, rfl⟩

theorem isRead_of_ofText? (h : ofText? cs = some head) : head.IsRead := by
  simp only [ofText?, Option.bind_eq_bind, Option.bind_eq_some_iff] at h
  obtain ⟨⟨name, cs₁⟩, hname, ⟨opening, cs₂⟩, hopening, cs₃, hquote, ⟨shown, cs₄⟩, hshown,
    ⟨comma, cs₅⟩, hcomma, hword⟩ := h
  dsimp only at hname hopening hquote hshown hcomma hword
  split at hword
  · cases hword
  · rename_i hempty
    cases hword
    obtain ⟨before, behind, hbefore, hbehind, rfl⟩ := mark?_eq_some hopening
    obtain ⟨before', behind', hbefore', hbehind', rfl⟩ := mark?_eq_some hcomma
    exact ⟨(Text.name?_eq_some_iff.1 hname).2.1, ⟨before, behind, hbefore, hbehind, rfl⟩,
      quoted?_append hshown, ⟨before', behind', hbefore', hbehind', rfl⟩,
      ⟨fun hnil => hempty (List.isEmpty_iff.2 hnil), fun c hc => List.mem_takeWhile_imp hc⟩,
      Text.stops_dropWhile Char.isAlphanum cs₅⟩

/-- The pieces of a head are read back from its text. -/
theorem ofText?_text (h : head.IsRead) : ofText? head.text = some head := by
  obtain ⟨name, opening, displayName, gap, typeWord, rest⟩ := head
  obtain ⟨hname, ⟨before, behind, hbefore, hbehind, hopening⟩, hshown,
    ⟨before', behind', hbefore', hbehind', hgap⟩, ⟨hne, hword⟩, hrest⟩ := h
  dsimp only at hname hopening hshown hgap hne hword hrest
  subst hopening hgap
  -- Each piece is read in front of the text of those behind it.
  have hwordRest := Text.takeWhile_append_of_stops hword hrest
  have hwordBlank : Stops isBlank (typeWord ++ rest) := by
    cases typeWord with
    | nil => exact absurd rfl hne
    | cons c more =>
      rintro d ⟨⟩
      by_contra hblank
      rw [Bool.not_eq_false] at hblank
      have hchar := Text.isNameChar_of_isBlank hblank
      rw [isNameChar, hword c List.mem_cons_self] at hchar
      cases hchar
  have hcomma := mark?_append (c := ',') (by decide) hbefore' hbehind' hwordBlank
  have hquote : Stops isBlank
      ('"' :: (displayName ++ '"' :: (before' ++ ',' :: behind' ++ (typeWord ++ rest)))) := by
    rintro d ⟨⟩
    decide
  have hparen := mark?_append (by decide : isBlank '(' = false) hbefore hbehind hquote
  have hstops : Stops isNameChar (before ++ '(' :: behind ++ '"' :: (displayName ++ '"' ::
      (before' ++ ',' :: behind' ++ (typeWord ++ rest)))) := by
    cases before with
    | nil =>
      rintro d ⟨⟩
      decide
    | cons c more =>
      rintro d ⟨⟩
      exact Text.isNameChar_of_isBlank (hbefore c List.mem_cons_self)
  have hfirst := Text.name?_eq_some_iff.2 ⟨rfl, hname, hstops⟩
  have htext : PropertyHead.text ⟨name, before ++ '(' :: behind ++ ['"'], displayName,
      '"' :: (before' ++ ',' :: behind'), typeWord, rest⟩
      = name ++ (before ++ '(' :: behind ++ '"' :: (displayName ++ '"' ::
        (before' ++ ',' :: behind' ++ (typeWord ++ rest)))) := by
    simp [text, separator]
  have hempty : typeWord.isEmpty = false := by simpa using hne
  rw [htext, ofText?, hfirst]
  simp only [Option.bind_eq_bind, Option.bind_some, hparen, Text.afterChar?, if_true, hshown, hcomma,
    hwordRest.1, hwordRest.2, hempty, Bool.false_eq_true, if_false]
  rfl

end PropertyHead

/-! ## Lines -/

namespace PropertyLine

variable {cs : List Char} {l : PropertyLine}

/-- The pieces of a line that can be read. -/
structure IsRead (l : PropertyLine) : Prop where
  tags : ∀ tail, Stops isBlank tail → Stops (· == '[') tail →
    ∃ bodies, PropertyTag.readAll (l.tags ++ tail) = (l.tags, bodies, tail)
  head : l.head.IsRead
  rest : '\n' ∉ l.head.rest

theorem isRead_of_ofText? (h : ofText? cs = some l) : l.IsRead := by
  obtain ⟨head, hfilter, rfl⟩ := Option.map_eq_some_iff.1 h
  obtain ⟨hhead, hrest⟩ := Option.filter_eq_some_iff.1 hfilter
  refine ⟨fun tail hblank htag => ⟨_, PropertyTag.readAll_append cs hblank htag⟩,
    PropertyHead.isRead_of_ofText? hhead, ?_⟩
  simpa using hrest

/-- A name starts neither with a blank nor with a tag. -/
theorem stops_text (h : l.head.IsRead) :
    Stops isBlank l.head.text ∧ Stops (· == '[') l.head.text := by
  have htext : l.head.text
      = l.head.name ++ (l.head.separator ++ (l.head.typeWord ++ l.head.rest)) := by
    simp [PropertyHead.text]
  refine ⟨?_, ?_⟩
  · rw [htext]
    exact h.name.stops_isBlank _
  · obtain ⟨c, more, hname, hstart, -⟩ := h.name
    rw [htext, hname]
    rintro d ⟨⟩
    by_contra htag
    rw [Bool.not_eq_false, beq_iff_eq] at htag
    rw [htag] at hstart
    exact absurd hstart (by decide)

/-- The pieces of a line are read back from its text. -/
theorem ofText?_text (h : l.IsRead) : ofText? l.text = some l := by
  obtain ⟨hblank, htag⟩ := stops_text h.head
  obtain ⟨bodies, htags⟩ := h.tags l.head.text hblank htag
  have hrest : (!l.head.rest.contains '\n') = true := by simpa using h.rest
  simp only [ofText?, text, htags, PropertyHead.ofText?_text h.head, Option.filter_some, hrest,
    if_true, Option.map_some]

/-- What declares a texture can be read again when it declares a texture array. -/
theorem IsRead.toTextureArray (h : l.IsRead) : l.toTextureArray.IsRead where
  tags := h.tags
  head := by
    have harray : ∀ c ∈ "_Array".toList, isNameChar c = true := List.all_eq_true.1 (by decide)
    have hword : ∀ c ∈ "2DArray".toList, c.isAlphanum = true := List.all_eq_true.1 (by decide)
    refine ⟨?_, h.head.opening, h.head.displayName, h.head.gap,
      ⟨(by decide : "2DArray".toList ≠ []), hword⟩, h.head.rest⟩
    obtain ⟨c, more, hname, hstart, hmore⟩ := h.head.name
    refine ⟨c, more ++ "_Array".toList, ?_, hstart, ?_⟩
    · rw [PropertyLine.toTextureArray, hname]
      rfl
    · intro d hd
      rcases List.mem_append.1 hd with hd | hd
      · exact hmore d hd
      · exact harray d hd
  rest := h.rest

/-! ## Texture arrays -/

/-- The pieces of a line make up its text. -/
theorem text_of_ofText? (h : ofText? cs = some l) : l.text = cs := by
  obtain ⟨head, hfilter, rfl⟩ := Option.map_eq_some_iff.1 h
  rw [text, PropertyHead.text_of_ofText? (Option.filter_eq_some_iff.1 hfilter).1,
    PropertyTag.append_readAll]

/-- Whether a line declares the texture array that takes the place of a texture: all of the
declaration of the texture is kept, apart from the name and the type word. -/
structure IsArrayOf (array l : PropertyLine) : Prop where
  tags : array.tags = l.tags
  name : array.head.name = l.head.name ++ "_Array".toList
  separator : array.head.separator = l.head.separator
  typeWord : array.head.typeWord = "2DArray".toList
  kind : PropertyKind.ofTypeWord? (String.ofList array.head.typeWord) = some .textureArray
  rest : array.head.rest = l.head.rest

theorem isArrayOf_toTextureArray (l : PropertyLine) : l.toTextureArray.IsArrayOf l where
  tags := rfl
  name := rfl
  separator := rfl
  typeWord := rfl
  kind := by
    have hword : String.ofList l.toTextureArray.head.typeWord = "2DArray" := rfl
    rw [hword]
    decide +kernel
  rest := rfl

/-- **The line of a texture array is read as one.**  A line that is read is the text of its pieces,
and the line that declares the array in its place is read with the same pieces around the new name
and the new type word. -/
theorem exists_isArrayOf (h : ofText? cs = some l) :
    l.tags ++ (l.head.name ++ l.head.separator ++ l.head.typeWord ++ l.head.rest) = cs ∧
      ∃ array, ofText? l.toTextureArray.text = some array ∧ array.IsArrayOf l :=
  ⟨text_of_ofText? h, _, ofText?_text (isRead_of_ofText? h).toTextureArray,
    isArrayOf_toTextureArray l⟩

/-- A declaration with nested brackets in its tags, and quotes in the name that is shown. -/
def taggedTexture : List Char :=
  "[Toggle(A[0])] [NoScaleOffset]_Main ( \"the \\\"main\\\" one, 2D\" , 2D) = \"white\" \x7b\x7d".toList

theorem exists_isArrayOf_taggedTexture :
    ∃ l, ofText? taggedTexture = some l ∧
      l.tags ++ (l.head.name ++ l.head.separator ++ l.head.typeWord ++ l.head.rest) = taggedTexture ∧
      ∃ array, ofText? l.toTextureArray.text = some array ∧ array.IsArrayOf l := by
  have hread : (ofText? taggedTexture).isSome = true := by decide +kernel
  obtain ⟨l, h⟩ := Option.isSome_iff_exists.1 hread
  exact ⟨l, h, exists_isArrayOf h⟩

/-! ## Hidden declarations -/

/-- A declaration that users do not see, in pieces. -/
def hidden (name displayName typeWord default : String) : PropertyLine where
  tags := "[HideInInspector] ".toList
  head := {
    name := name.toList
    opening := " (\"".toList
    displayName := displayName.toList
    gap := "\", ".toList
    typeWord := typeWord.toList
    rest := ") = ".toList ++ default.toList }

theorem isRead_hidden {name displayName typeWord default : String} (hname : IsName name.toList)
    (hquote : '"' ∉ displayName.toList) (hslash : '\\' ∉ displayName.toList)
    (hne : typeWord.toList ≠ []) (hword : ∀ c ∈ typeWord.toList, c.isAlphanum = true)
    (hdefault : '\n' ∉ default.toList) : (hidden name displayName typeWord default).IsRead where
  tags tail hblank htag := by
    have hall : PropertyTag.readAll "[HideInInspector] ".toList
        = ("[HideInInspector] ".toList, ["HideInInspector".toList], []) := by decide +kernel
    have hread := PropertyTag.readAll_append "[HideInInspector] ".toList hblank htag
    rw [hall] at hread
    exact ⟨_, hread⟩
  head := by
    refine ⟨hname, ⟨[' '], [], ?_, ?_, rfl⟩, PropertyHead.quoted?_of_plain hquote hslash,
      ⟨[], [' '], ?_, ?_, rfl⟩, ⟨hne, hword⟩, ?_⟩
    · exact List.all_eq_true.1 (by decide)
    · exact List.all_eq_true.1 (by decide)
    · exact List.all_eq_true.1 (by decide)
    · exact List.all_eq_true.1 (by decide)
    · rintro c ⟨⟩
      decide
  rest := by
    intro hmem
    rcases List.mem_append.1 hmem with hmem | hmem
    · exact absurd hmem (by decide)
    · exact hdefault hmem

/-- The declaration of a float that users do not see is made of these pieces. -/
theorem toList_hiddenFloat (name displayName : String) (default : Binary32) :
    (hiddenFloat name displayName default).toList
      = (hidden name displayName "Float" (NumberLayout.plain.text default)).text := by
  have hliteral : "\", Float) = ".toList = "\", ".toList ++ ("Float".toList ++ ") = ".toList) := rfl
  unfold hiddenFloat hidden
  simp only [text, PropertyHead.text, PropertyHead.separator, String.toList_append,
    List.append_assoc, hliteral]

end PropertyLine

end ShaderMerge
