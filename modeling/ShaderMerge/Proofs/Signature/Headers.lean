import ShaderMerge.Proofs.Signature.Pieces
import ShaderMerge.Proofs.Text.Pieces

/-!
# What a header is read from

A header is attributes, modifiers, a return type, a name and an opening parenthesis, one behind
the other.  `Header.ofText?` reads a header exactly if its parts are of these kinds
(`Header.IsRead`) and append to the text (`Header.ofText?_eq_some_iff`).  So a part may be put in
the place of another one of its kind, and what is read changes in that part alone.
-/

namespace ShaderMerge.Signature

open Text (IsName IsBlanks Stops isBlank isNameChar skipBlanks)

variable {cs rest lead : List Char} {header : Header}

/-! ## Return types -/

/-- Whether a text is a return type: a name, perhaps with type arguments. -/
def IsReturnType (cs : List Char) : Prop :=
  ∃ name, IsName name ∧ (cs = name ∨ ∃ inner, '>' ∉ inner ∧ cs = name ++ '<' :: (inner ++ ['>']))

theorem stops_cons {p : Char → Bool} {c : Char} (hc : p c = false) (rest : List Char) :
    Stops p (c :: rest) := by
  rintro _ ⟨⟩
  exact hc

/-- A name ends in front of blanks or a parenthesis. -/
theorem stops_space {space : List Char} (hspace : IsBlanks space) (rest : List Char) :
    Stops isNameChar (space ++ '(' :: rest) := by
  cases space with
  | nil => exact stops_cons (by decide) rest
  | cons b space => exact hspace.stops_isNameChar (List.cons_ne_nil b space) _

theorem typeArguments_of_head (h : cs.head? ≠ some '<') : typeArguments cs = ([], cs) := by
  rw [typeArguments.eq_def]
  split
  · exact absurd rfl h
  · rfl

/-- A return type is read up to the blanks behind it. -/
theorem typeArguments_of_isReturnType {type gap : List Char} (htype : IsReturnType type)
    (hgap : gap ≠ [] ∧ IsBlanks gap) (rest : List Char) :
    ∃ word args, Text.name? (type ++ (gap ++ rest)) = some (word, args ++ (gap ++ rest)) ∧
      typeArguments (args ++ (gap ++ rest)) = (args, gap ++ rest) ∧ word ++ args = type := by
  obtain ⟨name, hname, rfl | ⟨inner, hinner, rfl⟩⟩ := htype
  · refine ⟨type, [], ?_, ?_, List.append_nil _⟩
    · exact Text.name?_eq_some_iff.2 ⟨rfl, hname, hgap.2.stops_isNameChar hgap.1 rest⟩
    · obtain ⟨b, gap, rfl⟩ := List.exists_cons_of_ne_nil hgap.1
      refine typeArguments_of_head ?_
      rintro ⟨⟩
      exact absurd (hgap.2 '<' List.mem_cons_self) (by decide)
  · refine ⟨name, '<' :: (inner ++ ['>']), ?_, ?_, rfl⟩
    · exact Text.name?_eq_some_iff.2 ⟨List.append_assoc _ _ _, hname, stops_cons (by decide) _⟩
    · have huntil := Text.until?_append hinner (gap ++ rest)
      rw [typeArguments.eq_def]
      simp only [List.cons_append, List.append_assoc, List.nil_append, huntil]

/-! ## Headers without attributes and modifiers -/

namespace Header

/-- The text behind the attributes and modifiers of a header. -/
def bare (h : Header) : List Char :=
  h.returnType ++ (h.gap ++ (h.name ++ (h.space ++ '(' :: h.rest)))

theorem lead_append_bare (h : Header) : h.lead ++ h.bare = h.text := by
  simp [bare, text, front]

/-- Whether the parts of a header behind its attributes and modifiers are of the right kinds. -/
structure IsBare (h : Header) : Prop where
  returnType : IsReturnType h.returnType
  gap : h.gap ≠ [] ∧ IsBlanks h.gap
  name : IsName h.name
  space : IsBlanks h.space

theorem IsBare.head (h : header.IsBare) : ∃ c rest, header.bare = c :: rest ∧
    Text.isNameStart c = true := by
  obtain ⟨name, ⟨c, more, rfl, hc, -⟩, htype | ⟨inner, -, htype⟩⟩ := h.returnType
  · exact ⟨c, _, by rw [bare, htype]; rfl, hc⟩
  · exact ⟨c, _, by rw [bare, htype]; rfl, hc⟩

end Header

/-- What a header without attributes and modifiers is read from. -/
theorem bareHeader?_eq_some_iff :
    bareHeader? lead cs = some header ↔ header.lead = lead ∧ header.bare = cs ∧ header.IsBare := by
  constructor
  · intro h
    simp only [bareHeader?, Option.bind_eq_bind, Option.bind_eq_some_iff] at h
    obtain ⟨⟨word, behind⟩, hword, h⟩ := h
    obtain ⟨rfl, hname, -⟩ := Text.name?_eq_some_iff.1 hword
    split at h
    · cases h
    · rename_i hgap
      simp only [Option.bind_eq_some_iff] at h
      obtain ⟨⟨name, last⟩, hsecond, rest, hrest, heq⟩ := h
      cases heq
      obtain ⟨hskip, hname', -⟩ := Text.name?_eq_some_iff.1 hsecond
      have hparenthesis := Text.eq_of_afterChar? hrest
      have hne : (typeArguments behind).2.takeWhile isBlank ≠ [] := by
        simpa using hgap
      refine ⟨rfl, ?_, ?_, ⟨hne, fun c hc => List.mem_takeWhile_imp hc⟩, hname',
        fun c hc => List.mem_takeWhile_imp hc⟩
      · rw [Header.bare]
        dsimp only
        rw [← hparenthesis, Text.takeWhile_append_skipBlanks, ← hskip,
          Text.takeWhile_append_skipBlanks, List.append_assoc, append_typeArguments]
      · refine ⟨word, hname, ?_⟩
        dsimp only
        rw [typeArguments.eq_def] at hne ⊢
        split at hne
        · split at hne
          · rename_i arguments rest huntil
            refine .inr ⟨arguments, Text.notMem_of_until? huntil, ?_⟩
            simp
          · exact absurd rfl hne
        · exact .inl (List.append_nil word)
  · rintro ⟨rfl, rfl, htype, hgap, hname, hspace⟩
    obtain ⟨word, args, hword, hargs, htype⟩ := typeArguments_of_isReturnType htype hgap
      (header.name ++ (header.space ++ '(' :: header.rest))
    have hblanks := Text.takeWhile_append_of_stops hgap.2
      (hname.stops_isBlank (header.space ++ '(' :: header.rest))
    have hname := Text.name?_eq_some_iff.2 ⟨rfl, hname, stops_space hspace header.rest⟩
    have hspace := Text.takeWhile_append_of_stops hspace
      (stops_cons (by decide : isBlank '(' = false) header.rest)
    rw [bareHeader?, Header.bare]
    simp only [hword, Option.bind_eq_bind, Option.bind_some, hargs, hblanks.1, skipBlanks, hblanks.2,
      hname, hspace.1, hspace.2, Text.afterChar?, if_true, htype]
    rw [if_neg (by simpa using hgap.1)]
    rfl

/-! ## Modifiers -/

/-- Whether a text is a word that may stand in front of a return type. -/
def IsModifier (cs : List Char) : Prop := ∃ word ∈ ["inline", "static", "precise"], cs = word.toList

/-- A modifier is a name. -/
theorem IsModifier.isName {word : List Char} (h : IsModifier word) : IsName word := by
  obtain ⟨w, hmem, rfl⟩ := h
  simp only [List.mem_cons, List.not_mem_nil, or_false] at hmem
  rcases hmem with rfl | rfl | rfl
  · exact ⟨'i', "nline".toList, rfl, by decide, List.all_eq_true.1 (by decide)⟩
  · exact ⟨'s', "tatic".toList, rfl, by decide, List.all_eq_true.1 (by decide)⟩
  · exact ⟨'p', "recise".toList, rfl, by decide, List.all_eq_true.1 (by decide)⟩

theorem afterModifier?_eq_some_iff : afterModifier? cs = some rest ↔
    ∃ word gap, IsModifier word ∧ gap ≠ [] ∧ IsBlanks gap ∧ cs = word ++ (gap ++ rest) ∧
      Stops isBlank rest := by
  constructor
  · intro h
    obtain ⟨behind, hword, hblanks⟩ := Option.bind_eq_some_iff.1 h
    obtain ⟨word, hmem, hafter⟩ := List.exists_of_findSome?_eq_some hword
    obtain ⟨gap, hne, hgap, rfl, hstops⟩ := Text.afterBlanks?_eq_some_iff.1 hblanks
    exact ⟨word.toList, gap, ⟨word, hmem, rfl⟩, hne, hgap, Text.after?_eq_some_iff.1 hafter, hstops⟩
  · rintro ⟨word, gap, ⟨w, hmem, rfl⟩, hne, hgap, rfl, hstops⟩
    have hfound : ["inline", "static", "precise"].findSome? (Text.after? · (w.toList ++ (gap ++ rest)))
        = some (gap ++ rest) := by
      simp only [List.mem_cons, List.not_mem_nil, or_false] at hmem
      rcases hmem with rfl | rfl | rfl <;> rfl
    rw [afterModifier?, hfound]
    exact Text.afterBlanks?_eq_some_iff.2 ⟨gap, hne, hgap, rfl, hstops⟩

/-- A modifier at the start of a text is the first name of it. -/
theorem name?_of_afterModifier? (h : afterModifier? cs = some rest) :
    ∃ word gap, Text.name? cs = some (word, gap ++ rest) ∧ gap ≠ [] ∧ IsBlanks gap ∧
      skipBlanks (gap ++ rest) = rest := by
  obtain ⟨word, gap, hword, hne, hgap, heq, hstops⟩ := afterModifier?_eq_some_iff.1 h
  refine ⟨word, gap, ?_, hne, hgap, Text.skipBlanks_append hgap hstops⟩
  exact Text.name?_eq_some_iff.2 ⟨heq, hword.isName, hgap.stops_isNameChar hne rest⟩

theorem modifiedHeader?_parenthesis (lead rest : List Char) :
    modifiedHeader? lead ('(' :: rest) = none := by
  rw [modifiedHeader?.eq_def]
  rfl

/-- A name in front of a parenthesis, without a return type in front of it, is no header. -/
theorem modifiedHeader?_of_name {name space : List Char} (hname : IsName name)
    (hspace : IsBlanks space) (lead rest : List Char) :
    modifiedHeader? lead (name ++ (space ++ '(' :: rest)) = none := by
  have hword := Text.name?_eq_some_iff.2 ⟨rfl, hname, stops_space hspace rest⟩
  have hblanks := Text.takeWhile_append_of_stops hspace
    (stops_cons (by decide : isBlank '(' = false) rest)
  have hhead : (space ++ '(' :: rest).head? ≠ some '<' := by
    cases space with
    | nil => simp
    | cons b space =>
      rintro ⟨⟩
      exact absurd (hspace '<' List.mem_cons_self) (by decide)
  have hbare : bareHeader? lead (name ++ (space ++ '(' :: rest)) = none := by
    rw [bareHeader?]
    simp only [hword, Option.bind_eq_bind, Option.bind_some, typeArguments_of_head hhead, hblanks.1,
      skipBlanks, hblanks.2]
    split
    · rfl
    · rfl
  rw [modifiedHeader?.eq_def]
  split
  · rename_i behind hmodifier
    obtain ⟨word, gap, hfirst, -, -, hskip⟩ := name?_of_afterModifier? hmodifier
    rw [hword] at hfirst
    have hbehind : space ++ '(' :: rest = gap ++ behind := (Prod.mk.inj (Option.some.inj hfirst)).2
    rw [← hbehind, skipBlanks, hblanks.2] at hskip
    rw [← hskip, modifiedHeader?_parenthesis]
    exact hbare
  · exact hbare

/-- Where the first word of a text is a modifier and its return type as well, a name and a
parenthesis follow. -/
theorem eq_of_afterModifier? (h : header.IsBare) (hmodifier : afterModifier? header.bare = some rest) :
    rest = header.name ++ (header.space ++ '(' :: header.rest) := by
  obtain ⟨htype, hgap, hname, hspace⟩ := h
  obtain ⟨word, args, hword, hargs, -⟩ := typeArguments_of_isReturnType htype hgap
    (header.name ++ (header.space ++ '(' :: header.rest))
  obtain ⟨first, blanks, hfirst, hne, hblanks, hskip⟩ := name?_of_afterModifier? hmodifier
  rw [Header.bare, hword] at hfirst
  have hbehind := (Prod.mk.inj (Option.some.inj hfirst)).2
  have hhead : (blanks ++ rest).head? ≠ some '<' := by
    obtain ⟨b, blanks, rfl⟩ := List.exists_cons_of_ne_nil hne
    rintro ⟨⟩
    exact absurd (hblanks '<' List.mem_cons_self) (by decide)
  rw [hbehind, typeArguments_of_head hhead] at hargs
  rw [(Prod.mk.inj hargs).2] at hskip
  rw [← hskip]
  exact Text.skipBlanks_append hgap.2 (hname.stops_isBlank _)

/-- Whether a text is made of modifiers with blanks behind them. -/
inductive IsModifiers : List Char → Prop where
  | nil : IsModifiers []
  | cons {word gap rest : List Char} (hword : IsModifier word) (hne : gap ≠ []) (hgap : IsBlanks gap)
    (hrest : IsModifiers rest) : IsModifiers (word ++ (gap ++ rest))

/-- Behind attributes a name follows. -/
theorem IsModifiers.head {modifiers : List Char} (h : IsModifiers modifiers) (hbare : header.IsBare) :
    ∃ c rest, modifiers ++ header.bare = c :: rest ∧ Text.isNameStart c = true := by
  cases h with
  | nil => exact hbare.head
  | @cons word gap rest hword =>
    obtain ⟨c, more, rfl, hc, -⟩ := hword.isName
    exact ⟨c, more ++ (gap ++ rest) ++ header.bare, rfl, hc⟩

theorem stops_of_isNameStart {c : Char} (hc : Text.isNameStart c = true) (rest : List Char) :
    Stops isBlank (c :: rest) := by
  have hname : IsName [c] := ⟨c, [], rfl, hc, nofun⟩
  exact hname.stops_isBlank rest

/-- What a header without attributes is read from. -/
theorem modifiedHeader?_eq_some_iff : modifiedHeader? lead cs = some header ↔
    ∃ modifiers, IsModifiers modifiers ∧ header.lead = lead ++ modifiers ∧
      modifiers ++ header.bare = cs ∧ header.IsBare := by
  constructor
  · intro h
    fun_induction modifiedHeader? lead cs with
    | case1 lead cs rest found header' heq ih =>
      cases h
      obtain ⟨modifiers, hmodifiers, hlead, hrest, hbare⟩ := ih heq
      obtain ⟨word, gap, hword, hne, hgap, rfl, -⟩ := afterModifier?_eq_some_iff.1 found
      have htake : (word ++ (gap ++ rest)).take ((word ++ (gap ++ rest)).length - rest.length)
          = word ++ gap := by
        rw [← List.append_assoc, List.length_append, Nat.add_sub_cancel, List.take_left]
      refine ⟨word ++ (gap ++ modifiers), .cons hword hne hgap hmodifiers, ?_, ?_, hbare⟩
      · rw [hlead, htake, List.append_assoc, List.append_assoc]
      · rw [List.append_assoc, List.append_assoc, hrest]
    | case2 lead cs rest found heq ih =>
      obtain ⟨hlead, htext, hbare⟩ := bareHeader?_eq_some_iff.1 h
      exact ⟨[], .nil, hlead.trans (List.append_nil _).symm, htext, hbare⟩
    | case3 lead cs found =>
      obtain ⟨hlead, htext, hbare⟩ := bareHeader?_eq_some_iff.1 h
      exact ⟨[], .nil, hlead.trans (List.append_nil _).symm, htext, hbare⟩
  · rintro ⟨modifiers, hmodifiers, hlead, rfl, hbare⟩
    induction hmodifiers generalizing lead with
    | nil =>
      rw [List.append_nil] at hlead
      have hread := bareHeader?_eq_some_iff.2 ⟨hlead, rfl, hbare⟩
      rw [List.nil_append, modifiedHeader?.eq_def]
      split
      · rename_i rest found
        -- The return type may be the word of a modifier, but no header follows it.
        rw [eq_of_afterModifier? hbare found, modifiedHeader?_of_name hbare.name hbare.space]
        exact hread
      · exact hread
    | @cons word gap modifiers hword hne hgap hmodifiers ih =>
      obtain ⟨c, rest, heq, hc⟩ := hmodifiers.head hbare
      have hmodifier : afterModifier? (word ++ (gap ++ modifiers) ++ header.bare)
          = some (modifiers ++ header.bare) := by
        refine afterModifier?_eq_some_iff.2 ⟨word, gap, hword, hne, hgap, by simp, ?_⟩
        rw [heq]
        exact stops_of_isNameStart hc rest
      have htake : (word ++ (gap ++ modifiers) ++ header.bare).take
          ((word ++ (gap ++ modifiers) ++ header.bare).length - (modifiers ++ header.bare).length)
            = word ++ gap := by
        have hsplit : word ++ (gap ++ modifiers) ++ header.bare
            = (word ++ gap) ++ (modifiers ++ header.bare) := by simp
        rw [hsplit, List.length_append, Nat.add_sub_cancel, List.take_left]
      have hinner : modifiedHeader? (lead ++ (word ++ gap)) (modifiers ++ header.bare) = some header :=
        ih (by rw [hlead]; simp)
      rw [modifiedHeader?.eq_def]
      split
      · rename_i behind found
        cases hmodifier.symm.trans found
        rw [htake, hinner]
      · rename_i hnone
        cases hmodifier.symm.trans hnone

/-! ## Attributes -/

theorem attributes_of_head (h : cs.head? ≠ some '[') : attributes cs = ([], cs) := by
  rw [attributes.eq_def]
  split
  · exact absurd rfl h
  · rfl

theorem attributes_of_until? {inner body after : List Char}
    (h : Text.until? ']' inner = some (body, after)) :
    attributes ('[' :: inner) = ('[' :: body ++ ']' :: after.takeWhile isBlank
      ++ (attributes (skipBlanks after)).1, (attributes (skipBlanks after)).2) := by
  rw [attributes.eq_def]
  split
  · rename_i heq
    cases heq
    split
    · rename_i body' after' found
      cases h.symm.trans found
      rfl
    · rename_i hnone
      cases h.symm.trans hnone
  · rename_i hother
    exact absurd rfl (hother inner)

/-- Whether a text is made of attributes in square brackets, with blanks behind them. -/
inductive IsAttributes : List Char → Prop where
  | nil : IsAttributes []
  | cons {body gap rest : List Char} (hbody : ']' ∉ body) (hgap : IsBlanks gap)
    (hrest : IsAttributes rest) : IsAttributes ('[' :: (body ++ ']' :: (gap ++ rest)))

theorem isAttributes_attributes (cs : List Char) : IsAttributes (attributes cs).1 := by
  fun_induction attributes cs with
  | case1 inner body after found more rest heq ih =>
    rw [heq] at ih
    have hattributes := IsAttributes.cons (Text.notMem_of_until? found)
      (fun c hc => List.mem_takeWhile_imp hc : IsBlanks (after.takeWhile isBlank)) ih
    simpa using hattributes
  | case2 => exact .nil
  | case3 => exact .nil

/-- Attributes are read up to a name. -/
theorem attributes_append {attrs : List Char} (h : IsAttributes attrs) {c : Char}
    (hc : Text.isNameStart c = true) (rest : List Char) :
    attributes (attrs ++ c :: rest) = (attrs, c :: rest) := by
  induction h with
  | nil =>
    refine attributes_of_head ?_
    rintro ⟨⟩
    exact absurd hc (by decide)
  | @cons body gap attrs hbody hgap hattrs ih =>
    have hstops : Stops isBlank (attrs ++ c :: rest) := by
      cases hattrs with
      | nil => exact stops_of_isNameStart hc rest
      | cons => exact stops_cons (by decide) _
    obtain ⟨htake, hdrop⟩ := Text.takeWhile_append_of_stops hgap hstops
    have huntil : Text.until? ']' (body ++ ']' :: (gap ++ (attrs ++ c :: rest)))
        = some (body, gap ++ (attrs ++ c :: rest)) := Text.until?_append hbody _
    have hread := attributes_of_until? huntil
    rw [htake, skipBlanks, hdrop, ih] at hread
    simpa using hread

/-! ## Headers -/

/-- Whether a header may be read: its parts are of the right kinds, and it has no reserved words. -/
structure Header.IsRead (h : Header) : Prop where
  lead : ∃ attrs modifiers, h.lead = attrs ++ modifiers ∧ IsAttributes attrs ∧ IsModifiers modifiers
  bare : h.IsBare
  free : h.isReserved = false

/-- **What a header is read from.** -/
theorem Header.ofText?_eq_some_iff :
    Header.ofText? cs = some header ↔ header.text = cs ∧ header.IsRead := by
  rw [Header.ofText?]
  constructor
  · intro h
    obtain ⟨hheader, hfree⟩ := Option.filter_eq_some_iff.1 h
    obtain ⟨modifiers, hmodifiers, hlead, hrest, hbare⟩ := modifiedHeader?_eq_some_iff.1 hheader
    refine ⟨?_, ⟨_, modifiers, hlead, isAttributes_attributes cs, hmodifiers⟩, hbare,
      by simpa using hfree⟩
    rw [← header.lead_append_bare, hlead, List.append_assoc, hrest, append_attributes]
  · rintro ⟨rfl, ⟨attrs, modifiers, hlead, hattrs, hmodifiers⟩, hbare, hfree⟩
    obtain ⟨c, rest, heq, hc⟩ := hmodifiers.head hbare
    have hread := attributes_append hattrs hc rest
    rw [← heq, ← List.append_assoc, ← hlead, header.lead_append_bare] at hread
    have hheader := modifiedHeader?_eq_some_iff.2 ⟨modifiers, hmodifiers, hlead, rfl, hbare⟩
    rw [hread]
    exact Option.filter_eq_some_iff.2 ⟨hheader, by simpa using hfree⟩

namespace Header

/-- A header is read whatever stands behind its parenthesis. -/
theorem IsRead.withRest (h : header.IsRead) (rest : List Char) : { header with rest }.IsRead :=
  ⟨h.lead, ⟨h.bare.returnType, h.bare.gap, h.bare.name, h.bare.space⟩, h.free⟩

theorem isReserved_eq_false_iff : header.isReserved = false ↔
    String.ofList header.returnType ∉ nonTypeWords ++ flowWords ∧
      String.ofList header.name ∉ flowWords := by
  rw [List.mem_append, not_or, isReserved, Bool.or_eq_false_iff, Bool.or_eq_false_iff]
  simp only [List.contains_eq_mem, decide_eq_false_iff_not]

/-- A name that is not reserved may take the place of the return type. -/
theorem IsRead.retyped (h : header.IsRead) {type : List Char} (htype : IsName type)
    (hfree : String.ofList type ∉ nonTypeWords ++ flowWords) :
    { header with returnType := type }.IsRead :=
  ⟨h.lead, ⟨⟨type, htype, .inl rfl⟩, h.bare.gap, h.bare.name, h.bare.space⟩,
    isReserved_eq_false_iff.2 ⟨hfree, (isReserved_eq_false_iff.1 h.free).2⟩⟩

/-- A text is read from its start: with other text behind the parenthesis the same header is read. -/
theorem IsRead.ofText?_front (h : header.IsRead) (rest : List Char) :
    ofText? (header.front ++ rest) = some { header with rest } :=
  ofText?_eq_some_iff.2 ⟨rfl, h.withRest rest⟩

end Header

end ShaderMerge.Signature
