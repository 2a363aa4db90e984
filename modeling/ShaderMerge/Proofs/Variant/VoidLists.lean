import ShaderMerge.Proofs.Signature.Headers
import ShaderMerge.Variant.SignatureEdit

/-!
# Clearing an empty list of parameters

An explicitly empty list of parameters, as in `(void)`, is cleared where it comes first in a text
(`SignatureEdit.clearVoidIn`).  That may be an attribute or a type argument of the header, the
list of the parameters, or some text behind them.  Whichever it is, the text keeps a header of the
same name (`exists_header_clearVoidIn`).
-/

namespace ShaderMerge

open Text (IsBlanks IsName)

/-- Modifiers are names and blanks. -/
theorem Signature.IsModifiers.notMem {modifiers : List Char} (h : Signature.IsModifiers modifiers) :
    '(' ∉ modifiers := by
  induction h with
  | nil => exact List.not_mem_nil
  | @cons word gap rest hword hne hgap hrest ih =>
    rw [List.mem_append, List.mem_append, not_or, not_or]
    exact ⟨hword.isName.notMem (by decide), fun hmem => absurd (hgap '(' hmem) (by decide), ih⟩

namespace Variant.SignatureEdit

open Signature (Header)

/-! ## Where an empty list is found -/

variable {cs front rest : List Char} {header : Header}

theorem afterVoidList?_eq_some_iff : afterVoidList? cs = some rest ↔ ∃ gap gap', IsBlanks gap ∧
    IsBlanks gap' ∧ cs = '(' :: (gap ++ ("void".toList ++ (gap' ++ [')']))) ++ rest := by
  have hvoid : "void".toList = ['v', 'o', 'i', 'd'] := by decide
  constructor
  · intro h
    simp only [afterVoidList?, Option.bind_eq_bind, Option.bind_eq_some_iff] at h
    obtain ⟨inner, hinner, behind, hbehind, hrest⟩ := h
    refine ⟨inner.takeWhile Text.isBlank, behind.takeWhile Text.isBlank,
      fun c hc => List.mem_takeWhile_imp hc, fun c hc => List.mem_takeWhile_imp hc, ?_⟩
    have htext : '(' :: (inner.takeWhile Text.isBlank ++ ("void".toList
        ++ (behind.takeWhile Text.isBlank ++ ')' :: rest))) = cs := by
      rw [← Text.eq_of_afterChar? hrest, Text.takeWhile_append_skipBlanks,
        ← Text.after?_eq_some_iff.1 hbehind, Text.takeWhile_append_skipBlanks,
        ← Text.eq_of_afterChar? hinner]
    rw [← htext]
    simp
  · rintro ⟨gap, gap', hgap, hgap', rfl⟩
    have hword : Text.skipBlanks (gap ++ ("void".toList ++ (gap' ++ ')' :: rest)))
        = "void".toList ++ (gap' ++ ')' :: rest) := by
      refine Text.skipBlanks_append hgap ?_
      rw [hvoid]
      exact Signature.stops_cons (by decide) _
    have hclose : Text.skipBlanks (gap' ++ ')' :: rest) = ')' :: rest :=
      Text.skipBlanks_append hgap' (Signature.stops_cons (by decide) rest)
    simp only [List.cons_append, List.append_assoc, List.nil_append, afterVoidList?, Text.afterChar?,
      if_true, Option.bind_eq_bind, Option.bind_some, hword, Text.after?_eq_some_iff.2 rfl, hclose]

/-- Only a parenthesis starts a list of parameters. -/
theorem clearVoidIn_append_of_notMem (h : '(' ∉ front) (rest : List Char) :
    clearVoidIn (front ++ rest) = front ++ clearVoidIn rest := by
  induction front with
  | nil => rfl
  | cons c front ih =>
    rw [List.mem_cons, not_or] at h
    have hnone : afterVoidList? (c :: (front ++ rest)) = none := by
      rw [afterVoidList?, Text.afterChar?, if_neg (Ne.symm h.1)]
      rfl
    rw [List.cons_append, clearVoidIn, hnone]
    dsimp only
    rw [ih h.2, List.cons_append]

/-- A list that goes on behind a text has only its parenthesis in common with the others. -/
theorem of_afterVoidList?_append {x : Char} {after : List Char}
    (h : afterVoidList? (x :: (front ++ rest)) = some after)
    (hnone : afterVoidList? (x :: front) = none) :
    '(' ∉ front ∧ ∃ c more, rest = c :: more ∧
      (Text.isBlank c = true ∨ c ∈ "void".toList ++ [')']) := by
  obtain ⟨gap, gap', hgap, hgap', heq⟩ := afterVoidList?_eq_some_iff.1 h
  have hfound : ∀ more, x :: front ≠ '(' :: (gap ++ ("void".toList ++ (gap' ++ [')']))) ++ more := by
    intro more hmore
    rw [afterVoidList?_eq_some_iff.2 ⟨gap, gap', hgap, hgap', hmore⟩] at hnone
    cases hnone
  rw [← List.cons_append] at heq
  rcases List.append_eq_append_iff.1 heq with ⟨more, hlist, hmore⟩ | ⟨more, hlist, -⟩
  · have htail : gap ++ ("void".toList ++ (gap' ++ [')'])) = front ++ more := (List.cons.inj hlist).2
    have hmem : ∀ c ∈ front ++ more, Text.isBlank c = true ∨ c ∈ "void".toList ++ [')'] := by
      intro c hc
      rw [← htail] at hc
      simp only [List.mem_append] at hc ⊢
      rcases hc with hc | hc | hc | hc
      · exact .inl (hgap c hc)
      · exact .inr (.inl hc)
      · exact .inl (hgap' c hc)
      · exact .inr (.inr hc)
    refine ⟨fun hopen => ?_, ?_⟩
    · exact absurd (hmem '(' (List.mem_append_left _ hopen)) (by decide)
    · cases more with
      | nil => exact absurd (hlist.symm.trans (List.append_nil _).symm) (by simpa using hfound [])
      | cons c more =>
        exact ⟨c, more ++ after, hmore, hmem c (List.mem_append_right _ List.mem_cons_self)⟩
  · exact absurd hlist (hfound more)

theorem clearVoidIn_of_notMem (h : '(' ∉ front) : clearVoidIn front = front := by
  have happend := clearVoidIn_append_of_notMem h []
  rwa [List.append_nil, clearVoidIn, List.append_nil] at happend

/-- A list that is found in a text is found in a longer one. -/
theorem clearVoidIn_append (h : clearVoidIn front ≠ front) (rest : List Char) :
    clearVoidIn (front ++ rest) = clearVoidIn front ++ rest := by
  induction front with
  | nil => exact absurd rfl h
  | cons x front ih =>
    rw [List.cons_append, clearVoidIn]
    rw [clearVoidIn] at h ⊢
    cases hfront : afterVoidList? (x :: front) with
    | some after =>
      obtain ⟨gap, gap', hgap, hgap', heq⟩ := afterVoidList?_eq_some_iff.1 hfront
      have hlonger : afterVoidList? (x :: (front ++ rest)) = some (after ++ rest) := by
        refine afterVoidList?_eq_some_iff.2 ⟨gap, gap', hgap, hgap', ?_⟩
        rw [← List.cons_append, heq, List.append_assoc]
      rw [hlonger]
      rfl
    | none =>
      rw [hfront] at h
      have hinner : clearVoidIn front ≠ front := fun hsame => h (congrArg (x :: ·) hsame)
      have hnone : afterVoidList? (x :: (front ++ rest)) = none := by
        by_contra hsome
        obtain ⟨after, hafter⟩ := Option.ne_none_iff_exists'.1 hsome
        exact hinner (clearVoidIn_of_notMem (of_afterVoidList?_append hafter hfront).1)
      rw [hnone]
      dsimp only
      rw [ih hinner, List.cons_append]

/-- Behind a text without an empty list, one is found from the next sign on if it is no part of
one. -/
theorem clearVoidIn_append_cons {c : Char} (hblank : Text.isBlank c = false)
    (hc : c ∉ "void".toList ++ [')']) (h : clearVoidIn front = front) (rest : List Char) :
    clearVoidIn (front ++ c :: rest) = front ++ clearVoidIn (c :: rest) := by
  induction front with
  | nil => rfl
  | cons x front ih =>
    rw [clearVoidIn] at h
    rw [List.cons_append, clearVoidIn]
    cases hfront : afterVoidList? (x :: front) with
    | some after =>
      obtain ⟨gap, gap', -, -, heq⟩ := afterVoidList?_eq_some_iff.1 hfront
      rw [hfront] at h
      have hlength := congrArg List.length (h.trans heq)
      simp at hlength
      omega
    | none =>
      rw [hfront] at h
      have hnone : afterVoidList? (x :: (front ++ c :: rest)) = none := by
        by_contra hsome
        obtain ⟨after, hafter⟩ := Option.ne_none_iff_exists'.1 hsome
        obtain ⟨-, d, more, heq, hd⟩ := of_afterVoidList?_append hafter hfront
        cases heq
        rcases hd with hd | hd
        · rw [hblank] at hd
          cases hd
        · exact hc hd
      rw [hnone]
      dsimp only
      rw [ih (List.cons.inj h).2, List.cons_append]

/-- No other sign comes into a text. -/
theorem clearVoidIn_subset (cs : List Char) : clearVoidIn cs ⊆ '(' :: ')' :: cs := by
  induction cs with
  | nil => exact List.nil_subset _
  | cons c rest ih =>
    rw [clearVoidIn]
    split
    · rename_i after hafter
      obtain ⟨gap, gap', -, -, heq⟩ := afterVoidList?_eq_some_iff.1 hafter
      have hsub : after ⊆ c :: rest := by
        rw [heq]
        exact List.subset_append_right _ _
      intro d hd
      simp only [List.mem_cons] at hd ⊢
      rcases hd with hd | hd | hd
      · exact .inl hd
      · exact .inr (.inl hd)
      · exact .inr (.inr (List.mem_cons.1 (hsub hd)))
    · intro d hd
      simp only [List.mem_cons] at hd ⊢
      rcases hd with hd | hd
      · exact .inr (.inr (.inl hd))
      · rcases List.mem_cons.1 (ih hd) with h | h
        · exact .inl h
        · rcases List.mem_cons.1 h with h | h
          · exact .inr (.inl h)
          · exact .inr (.inr (.inr h))

theorem exists_clearVoidIn_parenthesis (rest : List Char) :
    ∃ rest', clearVoidIn ('(' :: rest) = '(' :: rest' := by
  rw [clearVoidIn]
  split
  · exact ⟨_, rfl⟩
  · exact ⟨_, rfl⟩

/-! ## Headers -/

/-- Between brackets of another kind an empty list of parameters is cleared, or behind them. -/
theorem exists_clearVoidIn (close : Char) (hblank : Text.isBlank close = false)
    (hclose : close ∉ "void".toList ++ [')']) (hopen : close ≠ '(') (body rest : List Char)
    (hbody : close ∉ body) :
    ∃ body' rest', close ∉ body' ∧ clearVoidIn (body ++ close :: rest) = body' ++ close :: rest' ∧
      (rest' = rest ∨ rest' = clearVoidIn rest) := by
  have hstep : clearVoidIn ([close] ++ rest) = [close] ++ clearVoidIn rest :=
    clearVoidIn_append_of_notMem (by simpa using Ne.symm hopen) rest
  by_cases hsame : clearVoidIn body = body
  · rw [clearVoidIn_append_cons hblank hclose hsame]
    exact ⟨body, clearVoidIn rest, hbody, congrArg (body ++ ·) hstep, .inr rfl⟩
  · rw [clearVoidIn_append hsame]
    refine ⟨clearVoidIn body, rest, fun hmem => ?_, rfl, .inl rfl⟩
    have hmem := clearVoidIn_subset body hmem
    simp only [List.mem_cons] at hmem
    rcases hmem with h | h | h
    · exact hopen h
    · exact hclose (List.mem_append_right _ (List.mem_singleton.2 h))
    · exact hbody h

theorem exists_clearVoidIn_attributes {attrs : List Char} (h : Signature.IsAttributes attrs)
    (rest : List Char) : ∃ attrs' rest', Signature.IsAttributes attrs' ∧
      clearVoidIn (attrs ++ rest) = attrs' ++ rest' ∧ (rest' = rest ∨ rest' = clearVoidIn rest) := by
  induction h with
  | nil => exact ⟨[], clearVoidIn rest, .nil, rfl, .inr rfl⟩
  | @cons body gap attrs hbody hgap hattrs ih =>
    obtain ⟨body', behind, hbody', hclear, hbehind⟩ := exists_clearVoidIn ']' (by decide)
      (by decide) (by decide) body (gap ++ (attrs ++ rest)) hbody
    have hopen : ∀ ds, clearVoidIn (['['] ++ ds) = ['['] ++ clearVoidIn ds :=
      clearVoidIn_append_of_notMem (by decide)
    have htext : '[' :: (body ++ ']' :: (gap ++ attrs)) ++ rest
        = ['['] ++ (body ++ ']' :: (gap ++ (attrs ++ rest))) := by simp
    rw [htext, hopen, hclear]
    rcases hbehind with rfl | rfl
    · exact ⟨_, rest, .cons hbody' hgap hattrs, by simp, .inl rfl⟩
    · obtain ⟨attrs', rest', hattrs', hclear', hrest'⟩ := ih
      have hgap' : '(' ∉ gap := fun hmem => absurd (hgap '(' hmem) (by decide)
      refine ⟨_, rest', .cons hbody' hgap hattrs', ?_, hrest'⟩
      rw [clearVoidIn_append_of_notMem hgap', hclear']
      simp

/-- A return type stays as it is, up to its type arguments. -/
theorem exists_clearVoidIn_returnType {type : List Char} (h : Signature.IsReturnType type)
    (rest : List Char) : ∃ type' rest', Signature.IsReturnType type' ∧
      (type' = type ∨ '<' ∈ type ∧ '<' ∈ type') ∧ clearVoidIn (type ++ rest) = type' ++ rest' ∧
      (rest' = rest ∨ rest' = clearVoidIn rest) := by
  obtain ⟨name, hname, rfl | ⟨inner, hinner, rfl⟩⟩ := h
  · exact ⟨type, clearVoidIn rest, ⟨type, hname, .inl rfl⟩, .inl rfl,
      clearVoidIn_append_of_notMem (hname.notMem (by decide)) rest, .inr rfl⟩
  · obtain ⟨inner', rest', hinner', hclear, hrest'⟩ := exists_clearVoidIn '>' (by decide)
      (by decide) (by decide) inner rest hinner
    refine ⟨name ++ '<' :: (inner' ++ ['>']), rest', ⟨name, hname, .inr ⟨inner', hinner', rfl⟩⟩,
      .inr (by simp), ?_, hrest'⟩
    have hfront : '(' ∉ name ++ ['<'] := by
      rw [List.mem_append, not_or]
      exact ⟨hname.notMem (by decide), by decide⟩
    have htext : name ++ '<' :: (inner ++ ['>']) ++ rest
        = (name ++ ['<']) ++ (inner ++ '>' :: rest) := by
      simp
    rw [htext, clearVoidIn_append_of_notMem hfront, hclear]
    simp

/-- The parts of a header stay what they are. -/
theorem exists_text_clearVoidIn (h : header.IsRead) : ∃ lead type rest,
    ({ header with lead, returnType := type, rest } : Header).text = clearVoidIn header.text ∧
      (∃ attrs modifiers, lead = attrs ++ modifiers ∧ Signature.IsAttributes attrs ∧
        Signature.IsModifiers modifiers) ∧
      Signature.IsReturnType type ∧
      (type = header.returnType ∨ '<' ∈ header.returnType ∧ '<' ∈ type) := by
  obtain ⟨⟨attrs, modifiers, hlead, hattrs, hmodifiers⟩, ⟨htype, hgap, hname, hspace⟩, -⟩ := h
  have hblanks : ∀ {gap : List Char}, IsBlanks gap → '(' ∉ gap := fun hgap hmem =>
    absurd (hgap '(' hmem) (by decide)
  rw [← header.lead_append_bare, Header.bare, hlead, List.append_assoc]
  obtain ⟨attrs', behind, hattrs', hclear, hbehind⟩ := exists_clearVoidIn_attributes hattrs (modifiers
    ++ (header.returnType ++ (header.gap ++ (header.name ++ (header.space ++ '(' :: header.rest)))))
  rw [hclear]
  rcases hbehind with rfl | rfl
  · exact ⟨attrs' ++ modifiers, header.returnType, header.rest, by simp [Header.text, Header.front],
      ⟨attrs', modifiers, rfl, hattrs', hmodifiers⟩, htype, .inl rfl⟩
  rw [clearVoidIn_append_of_notMem hmodifiers.notMem]
  obtain ⟨type', behind, htype', hsame, hclear, hbehind⟩ := exists_clearVoidIn_returnType htype
    (header.gap ++ (header.name ++ (header.space ++ '(' :: header.rest)))
  rw [hclear]
  rcases hbehind with rfl | rfl
  · exact ⟨attrs' ++ modifiers, type', header.rest, by simp [Header.text, Header.front],
      ⟨attrs', modifiers, rfl, hattrs', hmodifiers⟩, htype', hsame⟩
  rw [clearVoidIn_append_of_notMem (hblanks hgap.2), clearVoidIn_append_of_notMem
    (hname.notMem (by decide)), clearVoidIn_append_of_notMem (hblanks hspace)]
  obtain ⟨rest', hrest'⟩ := exists_clearVoidIn_parenthesis header.rest
  exact ⟨attrs' ++ modifiers, type', rest', by simp [Header.text, Header.front, hrest'],
    ⟨attrs', modifiers, rfl, hattrs', hmodifiers⟩, htype', hsame⟩

/-- **Behind the clearing of an empty list** the header has the same name, and it returns nothing
if the old one does. -/
theorem exists_header_clearVoidIn (h : header.IsRead) : ∃ header' : Header,
    header'.text = clearVoidIn header.text ∧ header'.IsRead ∧ header'.name = header.name ∧
      (header'.returnType = "void".toList ↔ header.returnType = "void".toList) := by
  obtain ⟨lead, type, rest, htext, hlead, htype, hsame⟩ := exists_text_clearVoidIn h
  refine ⟨_, htext, ⟨hlead, ⟨htype, h.bare.gap, h.bare.name, h.bare.space⟩, ?_⟩, rfl, ?_⟩
  · rcases hsame with rfl | ⟨-, hangle⟩
    · exact h.free
    · have hwords : ∀ word ∈ Signature.nonTypeWords ++ Signature.flowWords, '<' ∉ word.toList := by
        decide
      have hfree := (Signature.Header.isReserved_eq_false_iff.1 h.free).2
      refine Signature.Header.isReserved_eq_false_iff.2 ⟨fun hmem => hwords _ hmem ?_, hfree⟩
      rwa [String.toList_ofList]
  · rcases hsame with rfl | ⟨hangle, hangle'⟩
    · exact Iff.rfl
    · have hvoid : '<' ∉ "void".toList := by decide
      exact iff_of_false (fun h => hvoid (h ▸ hangle')) (fun h => hvoid (h ▸ hangle))

end Variant.SignatureEdit

end ShaderMerge
