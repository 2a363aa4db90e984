import ShaderMerge.Proofs.Signature.Layouts
import ShaderMerge.Proofs.Signature.PrintedParameters

/-!
# Printed signatures

A `PrintedSignature` is a signature as it may be printed, with blanks wherever shader code allows them,
and `PrintedSignature.value` is what it means.  `PrintedSignature.ofText?_printed_iff` is the main
result: reading inverts printing exactly where the printed signature satisfies
`PrintedSignature.IsReadable`.  Blanks must stand where the reader parts words, and must not stand where
it parts them by mistake, in front of the brackets of an array and inside of them.
-/

namespace ShaderMerge.Signature

open Text (IsBlanks IsDense IsName isBlank trimmed words)

/-! ## Printed signatures -/

/-- A signature as it may be printed. -/
structure PrintedSignature where
  returnType : PrintedType
  gap : List Char
  name : List Char
  space : List Char
  parameters : List PrintedParameter
  /-- What stands between the parentheses when there are no parameters. -/
  empty : List Char
  /-- The blanks behind the parameters. -/
  behind : List Char
  semantic : Option (List Char)
  isGap : IsBlanks gap
  isParted : returnType.arguments = none → gap ≠ []
  isName : IsName name
  isSpace : IsBlanks space
  isEmpty : trimmed empty = [] ∨ trimmed empty = "void".toList
  isBehind : IsBlanks behind
  isSemantic : ∀ s ∈ semantic, trimmed s ≠ [] ∧ (trimmed s).getLast? ≠ some ';'

namespace PrintedSignature

variable (s : PrintedSignature)

/-- The text between the parentheses. -/
def inner : List Char :=
  if s.parameters = [] then s.empty else List.intercalate [','] (s.parameters.map (·.text))

/-- The text behind the parentheses. -/
def after : List Char := s.behind ++ s.semantic.elim [] (':' :: ·)

/-- The printed text. -/
def text : List Char :=
  s.returnType.text ++ (s.gap ++ (s.name ++ (s.space ++ '(' :: (s.inner ++ ')' :: s.after))))

/-- The signature that is printed, on some lines. -/
def value (lines : List String) : Signature where
  name := String.ofList s.name
  returnType := String.ofList s.returnType.text
  returnSemantic := s.semantic.map fun s => String.ofList (trimmed s)
  parameters := s.parameters.map (·.value)
  lines := lines

/-- Whether a printed signature is read as it is meant. -/
structure IsReadable : Prop where
  gap : s.gap ≠ []
  arguments : ∀ b ∈ s.returnType.arguments, b.blanks = [] ∧ '>' ∉ b.inner
  returnType : String.ofList s.returnType.text ∉ nonTypeWords ++ flowWords
  name : String.ofList s.name ∉ flowWords
  parameters : ∀ p ∈ s.parameters, p.IsReadable

end PrintedSignature

/-! ## The list of the parameters -/

theorem IsBalanced.intercalate {pieces : List (List Char)} (h : ∀ piece ∈ pieces, IsBalanced [] piece) :
    IsBalanced [] (List.intercalate [','] pieces) := by
  induction pieces with
  | nil => exact .nil
  | cons piece pieces ih =>
    obtain ⟨hpiece, hpieces⟩ := List.forall_mem_cons.1 h
    cases pieces with
    | nil => rwa [List.intercalate_singleton]
    | cons next pieces =>
      rw [List.intercalate_cons_cons, List.append_assoc]
      exact hpiece.append (.cons (by decide) (by decide) (ih hpieces))

namespace PrintedSignature

variable (s : PrintedSignature)

theorem isBalanced_empty : IsBalanced [',', '=', ':'] s.empty := by
  obtain ⟨gap, gap', hgap, hgap', heq⟩ := Text.exists_trimmed s.empty
  have hmiddle : IsBalanced [',', '=', ':'] (trimmed s.empty) := by
    rcases s.isEmpty with hnil | hvoid
    · rw [hnil]
      exact .nil
    · rw [hvoid]
      exact isBalanced_name (by decide)
  rw [← heq]
  exact (isBalanced_blanks hgap).append (hmiddle.append (isBalanced_blanks hgap'))

theorem isBalanced_inner : IsBalanced [] s.inner := by
  rw [inner]
  split
  · exact s.isBalanced_empty.mono nofun
  · refine .intercalate fun piece hpiece => ?_
    obtain ⟨p, -, rfl⟩ := List.mem_map.1 hpiece
    exact p.isBalanced_text.mono nofun

/-- **The parameters are read as they are meant exactly if each of them is.** -/
theorem parameters?_inner : parameters? s.inner = some (s.parameters.map (·.value)) ↔
    ∀ p ∈ s.parameters, p.IsReadable := by
  rw [parameters?_eq_some_iff, inner]
  by_cases hnil : s.parameters = []
  · rw [if_pos hnil, hnil]
    exact iff_of_true (.inr ⟨rfl, s.isEmpty⟩) nofun
  · have hpieces : splitTop ',' (List.intercalate [','] (s.parameters.map (·.text)))
        = s.parameters.map (·.text) := by
      obtain ⟨first, others, hfirst⟩ :=
        List.exists_cons_of_ne_nil (mt List.map_eq_nil_iff.1 hnil : s.parameters.map (·.text) ≠ [])
      have hopen : ∀ piece ∈ first :: others, openBehind? ',' 0 piece = some 0 := by
        intro piece hpiece
        obtain ⟨p, -, rfl⟩ := List.mem_map.1 (hfirst ▸ hpiece)
        exact p.isBalanced_text.openBehind?_zero (by decide)
      rw [hfirst, splitTop_intercalate rfl hopen]
      simp
    have hnone : s.parameters.map (·.value) ≠ [] := by simpa using hnil
    rw [if_neg hnil, or_iff_left fun h => hnone h.1, ReadsAs, hpieces, List.map_map, List.map_map,
      List.map_inj_left]
    exact forall₂_congr fun p _ => PrintedParameter.ofText?_text_iff

/-- **The return semantic is read as it is printed.** -/
theorem returnSemantic?_after :
    returnSemantic? s.after = s.semantic.map fun t => String.ofList (trimmed t) := by
  rw [after]
  cases hsemantic : s.semantic with
  | none =>
    have hblank : trimmed s.behind = [] := Text.trimmed_append_blanks s.isBehind []
    rw [Option.elim_none, List.append_nil, returnSemantic?, hblank]
    rfl
  | some t =>
    obtain ⟨hne, hlast⟩ := s.isSemantic t hsemantic
    obtain ⟨gap, gap', hgap, hgap', heq⟩ := Text.exists_trimmed t
    obtain ⟨front, c, hconcat⟩ := (trimmed t).eq_nil_or_concat'.resolve_left hne
    rw [hconcat, List.getLast?_concat] at hlast
    have hmem : c ∈ (trimmed t).getLast? := by rw [hconcat, List.getLast?_concat, Option.mem_some_iff]
    have hc : isBlank c = false := Text.isBlank_getLast_trimmed hmem
    -- The colon and the last letter hold the blanks inside.
    have htrimmed : trimmed (':' :: (gap ++ trimmed t)) = ':' :: (gap ++ trimmed t) := by
      refine Text.trimmed_of_ends ?_ ?_
      · rintro _ ⟨⟩
        decide
      · rw [hconcat, ← List.append_assoc, ← List.cons_append, List.getLast?_concat]
        rintro _ ⟨⟩
        exact hc
    have hsemicolon : Text.dropEndWhile (· == ';') (':' :: (gap ++ trimmed t))
        = ':' :: (gap ++ trimmed t) := by
      refine Text.dropEndWhile_eq_self_iff.2 ?_
      rw [hconcat, ← List.append_assoc, ← List.cons_append, List.getLast?_concat]
      rintro _ ⟨⟩
      exact beq_eq_false_iff_ne.2 fun heq => hlast (congrArg some heq)
    have htext : s.behind ++ ':' :: t = s.behind ++ (':' :: (gap ++ trimmed t) ++ gap') := by
      conv_lhs => rw [← heq]
      simp
    rw [Option.elim_some, htext, returnSemantic?, Text.trimmed_gap_append s.isBehind,
      Text.trimmed_append_blanks hgap', htrimmed, hsemicolon, htrimmed, Text.afterChar?, if_pos rfl]
    simp [Text.trimmed_gap_append hgap, Text.trimmed_trimmed, hne]

/-! ## The header -/

/-- The parts of the printed header. -/
def header : Header where
  lead := []
  returnType := s.returnType.text
  gap := s.gap
  name := s.name
  space := s.space
  rest := s.inner ++ ')' :: s.after

theorem header_text : s.header.text = s.text := by
  simp [Header.text, Header.front, header, text]

theorem textWith_header : s.header.textWith s.inner s.after = s.text := by
  simp [Header.textWith, Header.front, header, text]

end PrintedSignature

/-- A type is a return type exactly if its arguments follow its name and have no angle bracket that
closes. -/
theorem PrintedType.isReturnType_iff (t : PrintedType) :
    IsReturnType t.text ↔ ∀ b ∈ t.arguments, b.blanks = [] ∧ '>' ∉ b.inner := by
  rw [text, argumentText]
  constructor
  · rintro ⟨name, hname, heq⟩ b hb
    rw [Option.mem_def.1 hb, Option.elim_some, PrintedBrackets.text] at heq
    have hstops : Text.Stops Text.isNameChar (b.blanks ++ '<' :: (b.inner ++ ['>'])) := by
      cases hblanks : b.blanks with
      | nil => exact stops_cons (by decide) _
      | cons c blanks =>
        exact stops_cons (Text.isNameChar_of_isBlank (b.isBlanks c (hblanks ▸ List.mem_cons_self))) _
    rcases heq with heq | ⟨inner, hinner, heq⟩
    · exact absurd (heq ▸ List.mem_append_right _ (List.mem_append_right _ List.mem_cons_self))
        (hname.notMem (c := '<') (by decide))
    · have hread := Text.name?_eq_some_iff.2 ⟨rfl, t.isName, hstops⟩
      rw [heq, Text.name?_eq_some_iff.2 ⟨rfl, hname, stops_cons (by decide) _⟩] at hread
      have hargs := (Prod.mk.inj (Option.some.inj hread)).2
      cases hblanks : b.blanks with
      | nil =>
        rw [hblanks] at hargs
        refine ⟨rfl, ?_⟩
        rwa [← (List.append_inj' (List.cons.inj hargs).2 rfl).1]
      | cons c blanks =>
        rw [hblanks] at hargs
        have hc := b.isBlanks c (hblanks ▸ List.mem_cons_self)
        rw [← (List.cons.inj hargs).1] at hc
        exact absurd hc (by decide)
  · intro h
    refine ⟨t.name, t.isName, ?_⟩
    cases harguments : t.arguments with
    | none => exact .inl (List.append_nil _)
    | some b =>
      obtain ⟨hblanks, hinner⟩ := h b harguments
      exact .inr ⟨b.inner, hinner, by rw [Option.elim_some, PrintedBrackets.text, hblanks]; rfl⟩

/-- Type arguments with a name right behind them are no start of a header. -/
theorem ofText?_of_unparted {word inner name : List Char} (hword : IsName word) (hinner : '>' ∉ inner)
    (hname : IsName name) (rest : List Char) :
    Header.ofText? (word ++ '<' :: (inner ++ '>' :: (name ++ rest))) = none := by
  have hread : Text.name? (word ++ '<' :: (inner ++ '>' :: (name ++ rest)))
      = some (word, '<' :: (inner ++ '>' :: (name ++ rest))) :=
    Text.name?_eq_some_iff.2 ⟨rfl, hword, stops_cons (by decide) _⟩
  have hargs : typeArguments ('<' :: (inner ++ '>' :: (name ++ rest)))
      = ('<' :: inner ++ ['>'], name ++ rest) := by
    rw [typeArguments.eq_def]
    simp only [Text.until?_append hinner]
  have hgap : ([] ++ (name ++ rest)).takeWhile isBlank = [] :=
    (Text.takeWhile_append_of_stops (List.forall_mem_nil _) (hname.stops_isBlank rest)).1
  rw [List.nil_append] at hgap
  have hbare : ∀ lead, bareHeader? lead (word ++ '<' :: (inner ++ '>' :: (name ++ rest))) = none := by
    intro lead
    rw [bareHeader?]
    simp only [hread, Option.bind_eq_bind, Option.bind_some, hargs, hgap]
    rfl
  have hmodifier : afterModifier? (word ++ '<' :: (inner ++ '>' :: (name ++ rest))) = none := by
    rw [Option.eq_none_iff_forall_ne_some]
    intro behind hbehind
    obtain ⟨first, gap, hfirst, hne, hgap, -⟩ := name?_of_afterModifier? hbehind
    obtain ⟨b, gap, rfl⟩ := List.exists_cons_of_ne_nil hne
    rw [hread] at hfirst
    have hb := hgap b List.mem_cons_self
    rw [← (List.cons.inj (Prod.mk.inj (Option.some.inj hfirst)).2).1] at hb
    cases hb
  have hattributes : attributes (word ++ '<' :: (inner ++ '>' :: (name ++ rest)))
      = ([], word ++ '<' :: (inner ++ '>' :: (name ++ rest))) := by
    obtain ⟨c, more, rfl, hc, -⟩ := hword
    refine attributes_of_head ?_
    rintro ⟨⟩
    cases hc
  have hmodified : modifiedHeader? [] (word ++ '<' :: (inner ++ '>' :: (name ++ rest))) = none := by
    rw [modifiedHeader?.eq_def]
    split
    · rename_i behind hbehind
      cases hmodifier.symm.trans hbehind
    · exact hbare []
  rw [Header.ofText?, hattributes]
  dsimp only
  rw [hmodified]
  rfl

namespace PrintedSignature

variable {s : PrintedSignature} {lines : List String}

/-- The header of a printed signature may be read if its parts are parted, and no word is reserved. -/
theorem isRead_header (hgap : s.gap ≠ [])
    (harguments : ∀ b ∈ s.returnType.arguments, b.blanks = [] ∧ '>' ∉ b.inner)
    (hfree : s.header.isReserved = false) : s.header.IsRead :=
  ⟨⟨[], [], rfl, .nil, .nil⟩,
    ⟨s.returnType.isReturnType_iff.2 harguments, ⟨hgap, s.isGap⟩, s.isName, s.isSpace⟩, hfree⟩

theorem IsReadable.ofText?_text (h : s.IsReadable) : ofText? s.text lines = some (s.value lines) := by
  have hread : (s.value lines).IsReadFrom s.header s.inner s.after :=
    ⟨isRead_header h.gap h.arguments (Header.isReserved_eq_false_iff.2 ⟨h.returnType, h.name⟩),
      s.isBalanced_inner.closes, s.parameters?_inner.2 h.parameters, rfl, rfl,
      s.returnSemantic?_after.symm⟩
  rw [← s.textWith_header]
  exact hread.ofText?_eq lines

/-- **A signature that is read as it is meant is readable.** -/
theorem isReadable_of_ofText?_text (h : ofText? s.text lines = some (s.value lines)) :
    s.IsReadable := by
  obtain ⟨header, inner, after, htext, hread⟩ := exists_isReadFrom h
  have hname : s.name = header.name := String.ofList_injective hread.name
  have htype : s.returnType.text = header.returnType := String.ofList_injective hread.returnType
  have harguments : ∀ b ∈ s.returnType.arguments, b.blanks = [] ∧ '>' ∉ b.inner :=
    s.returnType.isReturnType_iff.1 (htype ▸ hread.isRead.bare.returnType)
  have hfree := Header.isReserved_eq_false_iff.1 hread.isRead.free
  rw [← hname, ← htype] at hfree
  have hheader : Header.ofText? s.text = some { header with rest := inner ++ ')' :: after } := by
    rw [htext]
    exact hread.isRead.ofText?_front _
  have hgap : s.gap ≠ [] := by
    intro hnil
    cases hnone : s.returnType.arguments with
    | none => exact s.isParted hnone hnil
    | some b =>
      obtain ⟨hblanks, hinner⟩ := harguments b hnone
      have hparts : s.text = s.returnType.name ++ '<' :: (b.inner ++ '>' ::
          (s.name ++ (s.space ++ '(' :: (s.inner ++ ')' :: s.after)))) := by
        simp [text, PrintedType.text, PrintedType.argumentText, PrintedBrackets.text, hnone, hblanks,
          hnil]
      rw [hparts, ofText?_of_unparted s.returnType.isName hinner s.isName] at hheader
      cases hheader
  -- The printed header is one that may be read, so it is the one that is read.
  have hsame : Header.ofText? s.text = some s.header :=
    Header.ofText?_eq_some_iff.2 ⟨s.header_text, isRead_header hgap harguments
      (Header.isReserved_eq_false_iff.2 hfree)⟩
  have hrest : s.inner ++ ')' :: s.after = inner ++ ')' :: after :=
    congrArg Header.rest (Option.some.inj (hsame.symm.trans hheader))
  have hinner : s.inner = inner := by
    have hclosing := closing?_of_closes s.isBalanced_inner.closes s.after
    rw [hrest, closing?_of_closes hread.closes] at hclosing
    exact (Prod.mk.inj (Option.some.inj hclosing)).1.symm
  exact ⟨hgap, harguments, hfree.1, hfree.2, s.parameters?_inner.1 (hinner ▸ hread.parameters)⟩

/-- **Reading a signature inverts its printing exactly where it is readable**, and the modifiers `in`,
`out` and `inout` say which parameters are read and which are written. -/
theorem ofText?_printed_iff (s : PrintedSignature) (lines : List String) :
    (ofText? s.text lines = some (s.value lines) ↔ s.IsReadable) ∧
      ∀ p ∈ (s.value lines).parameters, (p.isInput = true ↔ "out" ∉ p.modifiers) ∧
        (p.isOutput = true ↔ "out" ∈ p.modifiers ∨ "inout" ∈ p.modifiers) := by
  refine ⟨⟨isReadable_of_ofText?_text, IsReadable.ofText?_text⟩, fun p _ => ⟨?_, ?_⟩⟩
  · rw [Parameter.isInput, Bool.not_eq_true', List.contains_eq_mem, decide_eq_false_iff_not]
  · rw [Parameter.isOutput, Bool.or_eq_true, List.contains_iff_mem, List.contains_iff_mem]

end PrintedSignature

end ShaderMerge.Signature
