import ShaderMerge.Proofs.Signature.ParameterLists

/-!
# Another name in the place of a type argument

In the declaration of a parameter a name behind an angle bracket is a type argument, or stands in
the semantic or the default.  Whichever it is, another name may take its place and the declaration
is still one (`Parameter.isSome_ofText?_renamed`), and so is the list of parameters
(`Signature.isSome_parameters?_renamed`).
-/

namespace ShaderMerge

open Text (IsName)

/-! ## Cutting around a name -/

namespace Signature

variable {separator : Char} {depth : Int} {front name : List Char}

/-- If something separates in a text, it is cut there whatever stands behind it. -/
theorem exists_cutTopFrom_append (h : openBehind? separator depth front = none) :
    ∃ before after, ∀ rest,
      cutTopFrom separator depth (front ++ rest) = some (before, after ++ rest) := by
  induction front generalizing depth with
  | nil => cases h
  | cons c front ih =>
    rw [openBehind?] at h
    simp only [List.cons_append, cutTopFrom]
    split at h
    · rename_i hseparates
      exact ⟨[], front, fun rest => if_pos hseparates⟩
    · rename_i hseparates
      obtain ⟨before, after, hcut⟩ := ih h
      exact ⟨c :: before, after, fun rest => by rw [if_neg hseparates, hcut]; rfl⟩

theorem openBehind?_name (hname : IsName name) (hseparator : Text.isNameChar separator = false)
    (depth : Int) : openBehind? separator depth name = some depth :=
  openBehind?_of_forall hname.forall_isNameChar (by decide) hseparator

/-- A text is cut in front of a name or behind it, whatever the name is. -/
theorem cutTop_around_name (separator : Char) (hseparator : Text.isNameChar separator = false)
    (front tail : List Char) :
    (∃ before after, ∀ name,
      cutTop separator (front ++ (name ++ tail)) = (before, some (after ++ (name ++ tail)))) ∨
      ∃ tail' after, ∀ name, IsName name →
        cutTop separator (front ++ (name ++ tail)) = (front ++ (name ++ tail'), after) := by
  cases hopen : openBehind? separator 0 front with
  | none =>
    obtain ⟨before, after, hcut⟩ := exists_cutTopFrom_append hopen
    exact .inl ⟨before, after, fun name => by rw [cutTop, hcut]⟩
  | some behind =>
    refine .inr ?_
    have hcut : ∀ name, IsName name → cutTopFrom separator 0 (front ++ (name ++ tail))
        = (cutTopFrom separator behind tail).map
          fun found => (front ++ (name ++ found.1), found.2) := by
      intro name hname
      rw [cutTopFrom_append hopen, cutTopFrom_append (openBehind?_name hname hseparator behind),
        Option.map_map]
      rfl
    cases htail : cutTopFrom separator behind tail with
    | none => exact ⟨tail, none, fun name hname => by rw [cutTop, hcut name hname, htail]; rfl⟩
    | some found =>
      exact ⟨found.1, some found.2, fun name hname => by rw [cutTop, hcut name hname, htail]; rfl⟩

end Signature

/-! ## The words of a declaration -/

namespace Parameter

variable {front tail name name' : List Char}

/-- Whether words declare a parameter. -/
def IsDeclaration (words : List (List Char)) : Prop :=
  ∃ modifiers types last, words = modifiers ++ (types ++ [last]) ∧
    (∀ word ∈ modifiers, isModifier word = true) ∧ types ≠ [] ∧
    (∀ word ∈ types.head?, isModifier word = false) ∧ (declarator last).1 ≠ []

theorem isSome_ofWords?_iff {words : List (List Char)} {semantic default : Option (List Char)} :
    (ofWords? words semantic default).isSome = true ↔ IsDeclaration words := by
  rw [Option.isSome_iff_exists]
  constructor
  · rintro ⟨p, hp⟩
    obtain ⟨modifiers, types, last, name, size, hwords, hmodifiers, htypes, hhead, hdeclarator,
      hname, -⟩ :=
      ofWords?_eq_some_iff.1 hp
    exact ⟨modifiers, types, last, hwords, hmodifiers, htypes, hhead, by rwa [hdeclarator]⟩
  · rintro ⟨modifiers, types, last, hwords, hmodifiers, htypes, hhead, hname⟩
    exact ⟨_, ofWords?_eq_some_iff.2
      ⟨modifiers, types, last, _, _, hwords, hmodifiers, htypes, hhead, rfl, hname, rfl⟩⟩

/-- A declarator has a name if it does not start with its size. -/
theorem declarator_fst_ne_nil_iff {cs : List Char} :
    (declarator cs).1 ≠ [] ↔ ∃ c, cs.head? = some c ∧ c ≠ '[' := by
  have hfst : (declarator cs).1 = cs.takeWhile (· != '[') := by
    rw [declarator.eq_def]
    split
    · rename_i hnone
      have hsplit := List.takeWhile_append_dropWhile (p := (· != '[')) (l := cs)
      rw [hnone, List.append_nil] at hsplit
      exact hsplit.symm
    · rfl
  rw [hfst]
  cases cs with
  | nil => simp
  | cons c cs =>
    rw [List.takeWhile_cons]
    by_cases hc : c = '['
    · simp [hc]
    · simp [hc]

theorem declarator_renamed {x y : List Char} (hname' : IsName name')
    (h : (declarator (x ++ (name ++ y))).1 ≠ []) : (declarator (x ++ (name' ++ y))).1 ≠ [] := by
  rw [declarator_fst_ne_nil_iff] at h ⊢
  cases x with
  | nil =>
    obtain ⟨c, rest, rfl, hc, -⟩ := hname'
    refine ⟨c, rfl, ?_⟩
    rintro rfl
    exact absurd hc (by decide)
  | cons c x => exact h

theorem notMem_of_isModifier {word : List Char} (h : isModifier word = true) : '<' ∉ word := by
  intro hmem
  exact absurd (isNameChar_of_isModifier h '<' hmem) (by decide)

/-- Behind an angle bracket no word is a modifier, and so another name may stand in one. -/
theorem IsDeclaration.renamed {before behind : List (List Char)} {x y : List Char}
    (hangle : '<' ∈ before.flatten ++ x) (hname' : IsName name')
    (h : IsDeclaration (before ++ (x ++ (name ++ y)) :: behind)) :
    IsDeclaration (before ++ (x ++ (name' ++ y)) :: behind) := by
  obtain ⟨modifiers, types, last, hwords, hmodifiers, htypes, hhead, hlast⟩ := h
  have hnotMem : '<' ∉ modifiers.flatten := by
    rw [List.mem_flatten]
    rintro ⟨word, hword, hmem⟩
    exact notMem_of_isModifier (hmodifiers word hword) hmem
  -- The word with the name comes behind all modifiers.
  obtain ⟨front, rfl, hrest⟩ : ∃ front, before = modifiers ++ front ∧
      types ++ [last] = front ++ (x ++ (name ++ y)) :: behind := by
    rcases List.append_eq_append_iff.1 hwords with ⟨more, rfl, hmore⟩ | ⟨more, rfl, hmore⟩
    · cases more with
      | nil => exact ⟨[], by simp, hmore.symm⟩
      | cons word more =>
        obtain ⟨rfl, -⟩ := List.cons.inj hmore
        refine absurd ?_ hnotMem
        rw [List.flatten_append, List.flatten_cons]
        simp only [List.mem_append] at hangle ⊢
        exact hangle.imp_right fun h => .inl (.inl h)
    · exact ⟨more, rfl, hmore⟩
  rcases List.eq_nil_or_concat behind with rfl | ⟨others, word, rfl⟩
  · obtain ⟨rfl, hsame⟩ := List.append_inj' hrest rfl
    rw [(List.cons.inj hsame).1] at hlast
    exact ⟨modifiers, types, _, by simp, hmodifiers, htypes, hhead, declarator_renamed hname' hlast⟩
  · rw [List.concat_eq_append, ← List.cons_append, ← List.append_assoc] at hrest
    obtain ⟨rfl, hsame⟩ := List.append_inj' hrest rfl
    obtain rfl : last = word := (List.cons.inj hsame).1
    refine ⟨modifiers, front ++ (x ++ (name' ++ y)) :: others, last, by simp, hmodifiers, by simp,
      ?_, hlast⟩
    cases front with
    | cons first front => exact hhead
    | nil =>
      rintro word ⟨⟩
      rw [List.append_nil, List.mem_append] at hangle
      refine Bool.eq_false_iff.2 fun hmodifier => notMem_of_isModifier hmodifier ?_
      exact List.mem_append_left _ (hangle.resolve_left hnotMem)

/-- **Another name behind an angle bracket** leaves a declaration one. -/
theorem isSome_ofText?_renamed (hangle : '<' ∈ front) (hname : IsName name) (hname' : IsName name')
    (h : (ofText? (front ++ (name ++ tail))).isSome = true) :
    (ofText? (front ++ (name' ++ tail))).isSome = true := by
  rw [ofText?_eq, isSome_ofWords?_iff, undefaulted] at h ⊢
  rcases Signature.cutTop_around_name '=' (by decide) front tail with
    ⟨before, after, hcut⟩ | ⟨tail', after, hcut⟩
  · rw [hcut] at h ⊢
    exact h
  rw [hcut name hname] at h
  rw [hcut name' hname']
  rcases Signature.cutTop_around_name ':' (by decide) front tail' with
    ⟨before, after, hcut⟩ | ⟨tail'', after, hcut⟩
  · rw [hcut] at h ⊢
    exact h
  rw [hcut name hname] at h
  rw [hcut name' hname']
  obtain ⟨before, x, y, behind, hflatten, hwords⟩ := Text.exists_words_append front tail''
  rw [hwords name hname.isDense] at h
  rw [hwords name' hname'.isDense]
  refine h.renamed ?_ hname'
  rw [hflatten]
  exact List.mem_filter.2 ⟨hangle, by decide⟩

end Parameter

/-! ## Lists of parameters -/

namespace Signature

variable {front tail name name' : List Char}

theorem exists_readsAs_iff {inner : List Char} : (∃ ps, ReadsAs inner ps) ↔
    ∀ piece ∈ splitTop ',' inner, (Parameter.ofText? piece).isSome = true := by
  constructor
  · rintro ⟨ps, h⟩ piece hpiece
    have hmem : Parameter.ofText? piece ∈ ps.map some := by
      rw [← h]
      exact List.mem_map_of_mem hpiece
    obtain ⟨q, -, hq⟩ := List.mem_map.1 hmem
    rw [← hq]
    rfl
  · intro h
    refine ⟨(splitTop ',' inner).pmap (fun piece hpiece => (Parameter.ofText? piece).get hpiece) h, ?_⟩
    rw [ReadsAs, List.map_pmap]
    simp only [Option.some_get]
    exact (List.pmap_eq_map h).symm

/-- A list with an angle bracket is not empty. -/
theorem isSome_parameters?_iff {inner : List Char} (hangle : '<' ∈ inner) :
    (parameters? inner).isSome = true ↔ ∃ ps, ReadsAs inner ps := by
  have hnot : ¬(Text.trimmed inner = [] ∨ Text.trimmed inner = "void".toList) := by
    obtain ⟨gap, gap', hgap, hgap', heq⟩ := Text.exists_trimmed inner
    have hblanks : ∀ {gap : List Char}, Text.IsBlanks gap → '<' ∉ gap := fun hgap hmem =>
      absurd (hgap '<' hmem) (by decide)
    rw [← heq, List.mem_append, List.mem_append] at hangle
    have hmem : '<' ∈ Text.trimmed inner :=
      (hangle.resolve_left (hblanks hgap)).resolve_right (hblanks hgap')
    rintro (h | h)
    · rw [h] at hmem
      cases hmem
    · rw [h] at hmem
      exact absurd hmem (by decide)
  rw [Option.isSome_iff_exists]
  refine exists_congr fun ps => parameters?_eq_some_iff.trans ⟨fun h => ?_, .inl⟩
  exact h.resolve_right fun h => hnot h.2

/-- **Another name behind an angle bracket** leaves a list of parameters one. -/
theorem isSome_parameters?_renamed {gap : List Char} (hgap : Text.IsBlanks gap) (hname : IsName name)
    (hname' : IsName name')
    (h : (parameters? (front ++ ('<' :: (gap ++ (name ++ tail))))).isSome = true) :
    (parameters? (front ++ ('<' :: (gap ++ (name' ++ tail))))).isSome = true := by
  rw [isSome_parameters?_iff (by simp), exists_readsAs_iff] at h ⊢
  obtain ⟨pieces, last, -, hsplit⟩ := exists_splitTopFrom_append ',' 0 front
  obtain ⟨piece, others, hothers⟩ := List.exists_cons_of_ne_nil
    (splitTopFrom_ne_nil ',' (0 + bracketBalance front + 1) tail)
  have hpieces : ∀ name, IsName name → splitTop ',' (front ++ ('<' :: (gap ++ (name ++ tail))))
      = pieces ++ ((last ++ '<' :: gap) ++ (name ++ piece)) :: others := by
    intro name hname
    have hopen : openBehind? ',' (0 + bracketBalance front) ('<' :: (gap ++ name))
        = some (0 + bracketBalance front + 1) := by
      rw [openBehind?, if_neg (by simp [separatesAt]), openBehind?_append,
        openBehind?_blanks hgap (by decide), Option.bind_some, openBehind?_name hname (by decide)]
      rfl
    have hbehind := splitTopFrom_append hopen tail
    rw [hothers, List.cons_append, List.append_assoc] at hbehind
    rw [splitTop, hsplit, hbehind]
    simp
  rw [hpieces name hname, List.forall_mem_append, List.forall_mem_cons] at h
  rw [hpieces name' hname', List.forall_mem_append, List.forall_mem_cons]
  exact ⟨h.1, Parameter.isSome_ofText?_renamed (by simp) hname hname' h.2.1, h.2.2⟩

end Signature

end ShaderMerge
