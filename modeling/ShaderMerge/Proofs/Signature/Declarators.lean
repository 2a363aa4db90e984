import ShaderMerge.Proofs.Signature.Parentheses
import ShaderMerge.Proofs.Signature.Pieces
import ShaderMerge.Proofs.Signature.Splitting
import ShaderMerge.Proofs.Text.Words
import ShaderMerge.Signature.Parameter

/-!
# Declarations of parameters

A parameter is read from the words of its declaration, in front of its semantic and its default
(`Parameter.ofText?_eq`).  Blanks around it change nothing.  If its type and its name are
replaced, the parameter that is read has the new ones and is the same apart from them
(`Parameter.ofText?_redeclared`).
-/

namespace ShaderMerge

open Text (IsBlanks IsDense IsName)

namespace Signature

variable {separator : Char} {depth : Int} {cs front rest gap : List Char}

/-- Blanks neither separate nor open or close brackets. -/
theorem openBehind?_blanks (hgap : IsBlanks gap) (hseparator : Text.isBlank separator = false)
    (depth : Int) : openBehind? separator depth gap = some depth :=
  openBehind?_of_forall hgap (by decide) hseparator

/-- In front of a text that leaves no bracket open, a separator is looked for behind it. -/
theorem cutTop_append (h : openBehind? separator 0 front = some 0) (rest : List Char) :
    cutTop separator (front ++ rest)
      = (front ++ (cutTop separator rest).1, (cutTop separator rest).2) := by
  rw [cutTop, cutTopFrom_append h, cutTop]
  cases cutTopFrom separator 0 rest <;> rfl

theorem cutTopFrom_append_of_notMem (depth : Int) (h : separator ∉ rest) (cs : List Char) :
    cutTopFrom separator depth (cs ++ rest)
      = (cutTopFrom separator depth cs).map fun (before, after) => (before, after ++ rest) := by
  induction cs generalizing depth with
  | nil =>
    have hopen : openBehind? separator depth rest = some (depth + bracketBalance rest) :=
      openBehind?_of_notMem h
    have hnone := cutTopFrom_append hopen []
    rwa [List.append_nil] at hnone
  | cons c cs ih =>
    rw [List.cons_append, cutTopFrom, cutTopFrom]
    split
    · rfl
    · rw [ih, Option.map_map, Option.map_map]
      rfl

end Signature

namespace Parameter

open Signature (cutTop openBehind? bracketBalance)

variable {cs lead gap tail : List Char} {p : Parameter}

/-! ## Reading the words of a declaration -/

/-- Whether a word may stand in front of the type. -/
def isModifier (word : List Char) : Bool := modifierWords.contains (String.ofList word)

/-- Read a parameter from the words of its declaration, and the texts of its semantic and default. -/
def ofWords? (words : List (List Char)) (semantic default : Option (List Char)) :
    Option Parameter := do
  let rest := words.dropWhile isModifier
  let last ← rest.getLast?
  let (name, size) := declarator last
  if rest.length < 2 || name.isEmpty then none
  return {
    type := String.ofList (joinWords rest.dropLast)
    name := String.ofList name
    semantic := semantic.map fun s => String.ofList (Text.trimmed s)
    arraySize := size.map String.ofList
    modifiers := (words.takeWhile isModifier).map String.ofList
    default := default.map fun d => String.ofList (Text.trimmed d) }

/-- A parameter without its default. -/
def undefaulted (cs : List Char) : List Char := (cutTop '=' cs).1

theorem ofText?_eq (cs : List Char) : ofText? cs
    = ofWords? (Text.words (cutTop ':' (undefaulted cs)).1)
    (cutTop ':' (undefaulted cs)).2 (cutTop '=' cs).2 := rfl

/-- Only the trimmed texts of the semantic and the default are read. -/
theorem ofWords?_congr {semantic semantic' default default' : Option (List Char)}
    (hsemantic : semantic.map Text.trimmed = semantic'.map Text.trimmed)
    (hdefault : default.map Text.trimmed = default'.map Text.trimmed) (words : List (List Char)) :
    ofWords? words semantic default = ofWords? words semantic' default' := by
  have hmap : ∀ {a b : Option (List Char)}, a.map Text.trimmed = b.map Text.trimmed →
      a.map (fun s => String.ofList (Text.trimmed s))
        = b.map fun s => String.ofList (Text.trimmed s) := by
    intro a b h
    rw [← Function.comp_def, ← Option.map_map, h, Option.map_map]
  rw [ofWords?, ofWords?, hmap hsemantic, hmap hdefault]

/-- **What a parameter is read from**: modifiers, the words of the type, of which the first is no
modifier, and a declarator with a name. -/
theorem ofWords?_eq_some_iff {words : List (List Char)} {semantic default : Option (List Char)} :
    ofWords? words semantic default = some p ↔ ∃ modifiers types last name size,
      words = modifiers ++ (types ++ [last]) ∧ (∀ word ∈ modifiers, isModifier word = true) ∧
        types ≠ [] ∧ (∀ word ∈ types.head?, isModifier word = false) ∧
        declarator last = (name, size) ∧ name ≠ [] ∧
        p = {
          type := String.ofList (joinWords types)
          name := String.ofList name
          semantic := semantic.map fun s => String.ofList (Text.trimmed s)
          arraySize := size.map String.ofList
          modifiers := modifiers.map String.ofList
          default := default.map fun d => String.ofList (Text.trimmed d) } := by
  constructor
  · intro h
    simp only [ofWords?, Option.bind_eq_bind, Option.bind_eq_some_iff] at h
    obtain ⟨last, hlast, h⟩ := h
    split at h
    · cases h
    · rename_i hread
      cases h
      simp only [Bool.or_eq_true, decide_eq_true_eq, List.isEmpty_iff, not_or, Nat.not_lt] at hread
      have hrest := List.dropLast_append_getLast? last hlast
      refine ⟨words.takeWhile isModifier, (words.dropWhile isModifier).dropLast, last, _, _, ?_,
        fun word hword => List.mem_takeWhile_imp hword, ?_, ?_, rfl, hread.2, rfl⟩
      · rw [hrest, List.takeWhile_append_dropWhile]
      · intro hnil
        have hlength := hread.1
        rw [← hrest, hnil, List.nil_append, List.length_singleton] at hlength
        omega
      · intro word hword
        have hhead : (words.dropWhile isModifier).head? = some word := by
          rw [← hrest, List.head?_append, Option.mem_def.1 hword, Option.some_or]
        have hnot := List.head?_dropWhile_not isModifier words
        rw [hhead] at hnot
        simpa using hnot
  · rintro ⟨modifiers, types, last, name, size, rfl, hmodifiers, htypes, hhead, hdeclarator, hname,
      rfl⟩
    obtain ⟨word, types, rfl⟩ := List.exists_cons_of_ne_nil htypes
    have hword : isModifier word = false := hhead word rfl
    have hdrop : (modifiers ++ (word :: types ++ [last])).dropWhile isModifier
        = word :: types ++ [last] := by
      rw [List.dropWhile_append_of_pos hmodifiers, List.cons_append,
        List.dropWhile_cons_of_neg (by simp [hword])]
    have htake : (modifiers ++ (word :: types ++ [last])).takeWhile isModifier = modifiers := by
      rw [List.takeWhile_append_of_pos hmodifiers, List.cons_append,
        List.takeWhile_cons_of_neg (by simp [hword]), List.append_nil]
    simp only [ofWords?, hdrop, htake, List.getLast?_concat, List.dropLast_concat,
      Option.bind_eq_bind, Option.bind_some, hdeclarator]
    rw [if_neg]
    · rfl
    · simp [hname]

/-! ## Blanks around a declaration -/

theorem ofText?_gap_append (hgap : IsBlanks gap) (cs : List Char) :
    ofText? (gap ++ cs) = ofText? cs := by
  have hcut : ∀ {separator}, Text.isBlank separator = false → ∀ cs,
      cutTop separator (gap ++ cs) = (gap ++ (cutTop separator cs).1, (cutTop separator cs).2) :=
    fun hseparator => Signature.cutTop_append (Signature.openBehind?_blanks hgap hseparator 0)
  rw [ofText?_eq, ofText?_eq, undefaulted, hcut (by decide), hcut (by decide),
    Text.words_gap_append hgap, undefaulted]

/-- Blanks at the end stay at the end of one of the two parts. -/
theorem cutTop_append_blanks (separator : Char) (hgap : IsBlanks gap)
    (hseparator : Text.isBlank separator = false) (cs : List Char) :
    ∃ gap', IsBlanks gap' ∧ (cutTop separator (cs ++ gap)).1 = (cutTop separator cs).1 ++ gap' ∧
      (cutTop separator (cs ++ gap)).2.map Text.trimmed
        = (cutTop separator cs).2.map Text.trimmed := by
  have hnotMem : separator ∉ gap := by
    intro hmem
    rw [hgap separator hmem] at hseparator
    cases hseparator
  rw [cutTop, Signature.cutTopFrom_append_of_notMem 0 hnotMem, cutTop]
  cases Signature.cutTopFrom separator 0 cs with
  | none => exact ⟨gap, hgap, rfl, rfl⟩
  | some found =>
    exact ⟨[], fun c hc => absurd hc List.not_mem_nil, (List.append_nil _).symm,
      congrArg some (Text.trimmed_append_blanks hgap found.2)⟩

theorem ofText?_append_blanks (hgap : IsBlanks gap) (cs : List Char) :
    ofText? (cs ++ gap) = ofText? cs := by
  obtain ⟨gap', hgap', hfront, hdefault⟩ := cutTop_append_blanks '=' hgap (by decide) cs
  obtain ⟨gap'', hgap'', hwords, hsemantic⟩ :=
    cutTop_append_blanks ':' hgap' (by decide) (undefaulted cs)
  rw [ofText?_eq, ofText?_eq, undefaulted, hfront, ← undefaulted, hwords,
    Text.words_append_blanks hgap'']
  exact ofWords?_congr hsemantic hdefault _

/-! ## A declarator in the place of another one -/

/-- Whether a text can stand for another one in a signature: nothing in it separates, and behind
it no more brackets are open than in front. -/
def IsWhole (cs : List Char) : Prop :=
  (∀ separator ∈ [',', '=', ':'], openBehind? separator 0 cs = some 0) ∧
    Signature.closing? 0 (cs ++ [')']) = some (cs, [])

instance (cs : List Char) : Decidable (IsWhole cs) :=
  @instDecidableAnd _ _ (List.decidableBAll _ _) inferInstance

theorem IsWhole.closes (h : IsWhole cs) : Signature.Closes 0 cs :=
  (Signature.closing?_eq_some_iff.1 h.2).2

/-- Whether a text is made of modifiers, up to the blanks in front of what follows. -/
def IsLead (cs : List Char) : Prop :=
  (∀ word ∈ Text.words cs, isModifier word = true) ∧ ∀ c ∈ cs.getLast?, Text.isBlank c = true

instance (cs : List Char) : Decidable (IsLead cs) :=
  decidable_of_iff ((∀ word ∈ Text.words cs, isModifier word = true) ∧
    cs.getLast?.all Text.isBlank = true) (by rw [Option.all_eq_true]; rfl)

/-- The words of what follows come behind the modifiers. -/
theorem IsLead.words_append (h : IsLead lead) (rest : List Char) :
    Text.words (lead ++ rest) = Text.words lead ++ Text.words rest := by
  rcases List.eq_nil_or_concat lead with rfl | ⟨front, c, rfl⟩
  · rfl
  · have hc : Text.isBlank c = true := h.2 c (by simp)
    rw [List.concat_eq_append, List.append_assoc, List.singleton_append, Text.words_append_cons hc,
      Text.words_append_blanks (List.forall_mem_singleton.2 hc)]

theorem isNameChar_of_isModifier {word : List Char} (h : isModifier word = true) :
    ∀ c ∈ word, Text.isNameChar c = true := by
  have hall : ∀ w ∈ modifierWords, w.toList.all Text.isNameChar = true := by decide
  have hmem : String.ofList word ∈ modifierWords := List.contains_iff_mem.1 h
  simpa using hall _ hmem

/-- Modifiers are made of names and blanks. -/
theorem IsLead.isNameChar_or_isBlank (h : IsLead lead) :
    ∀ c ∈ lead, (Text.isNameChar c || Text.isBlank c) = true := by
  intro c hc
  by_cases hblank : Text.isBlank c = true
  · rw [hblank, Bool.or_true]
  · have hflatten : c ∈ (Text.words lead).flatten := by
      rw [Text.flatten_words]
      exact List.mem_filter.2 ⟨hc, by simpa using hblank⟩
    obtain ⟨word, hword, hmem⟩ := List.mem_flatten.1 hflatten
    rw [isNameChar_of_isModifier (h.1 word hword) c hmem, Bool.true_or]

/-- Modifiers have no brackets. -/
theorem IsLead.openBehind? (h : IsLead lead) {separator : Char}
    (hname : Text.isNameChar separator = false) (hblank : Text.isBlank separator = false)
    (depth : Int) :
    Signature.openBehind? separator depth lead = some depth :=
  Signature.openBehind?_of_forall h.isNameChar_or_isBlank (by decide) (by rw [hname, hblank]; rfl)

/-- A name is a declarator without an array size. -/
theorem declarator_of_isName {name : List Char} (hname : IsName name) :
    declarator name = (name, none) := by
  rw [declarator.eq_def, List.dropWhile_eq_nil_iff.2]
  intro c hc
  rw [bne_iff_ne]
  rintro rfl
  exact hname.notMem (by decide) hc

/-- The name in front of an array size may be replaced. -/
theorem declarator_append {name name' rest : List Char} {size : Option (List Char)}
    (h : declarator (name ++ rest) = (name, size)) (hname' : '[' ∉ name') :
    declarator (name' ++ rest) = (name', size) := by
  have hall : ∀ c ∈ name', (c != '[') = true := by
    intro c hc
    rw [bne_iff_ne]
    rintro rfl
    exact hname' hc
  rw [declarator.eq_def] at h
  split at h
  · -- There is no size, and so no more than the name.
    obtain ⟨hfront, rfl⟩ := Prod.mk.inj h
    obtain rfl : rest = [] := by simpa using hfront
    rw [List.append_nil, declarator.eq_def, List.dropWhile_eq_nil_iff.2 hall]
  · rename_i c inner hinner
    obtain ⟨hfront, rfl⟩ := Prod.mk.inj h
    have hrest : rest = c :: inner := by
      have hsplit := List.takeWhile_append_dropWhile (p := (· != '[')) (l := name ++ rest)
      rw [hfront, hinner] at hsplit
      exact (List.append_cancel_left hsplit).symm
    have hc : c = '[' := by
      have hhead := List.head?_dropWhile_not (· != '[') (name ++ rest)
      rw [hinner] at hhead
      simpa using hhead
    have hstops : Text.Stops (· != '[') (c :: inner) := by
      rintro d ⟨⟩
      simp [hc]
    obtain ⟨htake, hdrop⟩ := Text.takeWhile_append_of_stops hall hstops
    rw [hrest, declarator.eq_def, hdrop, htake]

/-- In a text that no separator cuts, the parts behind it are read. -/
theorem ofText?_append_of_open {front : List Char}
    (h : ∀ separator ∈ ['=', ':'], openBehind? separator 0 front = some 0) (tail : List Char) :
    ofText? (front ++ tail) = ofWords? (Text.words (front ++ (cutTop ':' (undefaulted tail)).1))
      (cutTop ':' (undefaulted tail)).2 (cutTop '=' tail).2 := by
  rw [ofText?_eq, undefaulted, Signature.cutTop_append (h '=' (by simp)),
    Signature.cutTop_append (h ':' (by simp)), undefaulted]

/-- The signs that separate are no part of names. -/
theorem not_name_of_separator : ∀ separator ∈ [',', '=', ':'],
    Text.isNameChar separator = false ∧ Text.isBlank separator = false := by
  refine List.forall_mem_cons.2 ⟨by decide, List.forall_mem_cons.2 ⟨by decide, ?_⟩⟩
  exact List.forall_mem_singleton.2 (by decide)

/-- Names and blanks can stand for another text. -/
theorem isWhole_of_forall (h : ∀ c ∈ cs, (Text.isNameChar c || Text.isBlank c) = true) :
    IsWhole cs := by
  refine ⟨fun separator hseparator => ?_, ?_⟩
  · obtain ⟨hname, hblank⟩ := not_name_of_separator separator hseparator
    exact Signature.openBehind?_of_forall h (by decide) (by rw [hname, hblank]; rfl)
  · have hother : ∀ c, (Text.isNameChar c || Text.isBlank c) = false → c ∉ cs := by
      intro c hc hmem
      rw [h c hmem] at hc
      cases hc
    exact Signature.closing?_eq_some_iff.2
      ⟨rfl, Signature.closes_of_notMem (hother '(' (by decide)) (hother ')' (by decide))⟩

theorem isWhole_of_names {type name : List Char} (htype : IsName type) (hname : IsName name) :
    IsWhole (type ++ ' ' :: name) := by
  refine isWhole_of_forall (List.forall_mem_append.2 ⟨fun c hc => ?_, List.forall_mem_cons.2 ⟨?_, ?_⟩⟩)
  · rw [htype.forall_isNameChar c hc, Bool.true_or]
  · decide
  · intro c hc
    rw [hname.forall_isNameChar c hc, Bool.true_or]

/-- However many blanks stand between the type and the name, nothing separates in front of them. -/
theorem openBehind?_declarator {type name : List Char} {separator : Char} (hlead : IsLead lead)
    (hgap : IsBlanks gap) (hwhole : IsWhole (type ++ ' ' :: name))
    (hseparator : separator ∈ [',', '=', ':']) :
    openBehind? separator 0 (lead ++ (type ++ (gap ++ name))) = some 0 := by
  obtain ⟨hname, hblank⟩ := not_name_of_separator separator hseparator
  have hdeclarator := hwhole.1 separator hseparator
  rw [← List.singleton_append] at hdeclarator
  simp only [Signature.openBehind?_append, hlead.openBehind? hname hblank,
    Signature.openBehind?_blanks (List.forall_mem_singleton.2 (by decide) : IsBlanks [' ']) hblank,
    Signature.openBehind?_blanks hgap hblank, Option.bind_some] at hdeclarator ⊢
  exact hdeclarator

/-- The words of a declaration whose type is known, behind modifiers: those of the type, and one
more. -/
theorem eq_singleton_of_words {mods modifiers types behind : List (List Char)} {last : List Char}
    (h : mods ++ (types ++ behind) = modifiers ++ (types ++ [last]))
    (hmods : ∀ word ∈ mods, isModifier word = true)
    (hmodifiers : ∀ word ∈ modifiers, isModifier word = true) (hne : types ≠ [])
    (hhead : ∀ word ∈ types.head?, isModifier word = false) : mods = modifiers ∧ behind = [last] := by
  obtain ⟨word, types, rfl⟩ := List.exists_cons_of_ne_nil hne
  have hword : isModifier word = false := hhead word rfl
  have htake : ∀ {front : List (List Char)} (rest), (∀ w ∈ front, isModifier w = true) →
      (front ++ (word :: types ++ rest)).takeWhile isModifier = front := by
    intro front rest hfront
    rw [List.takeWhile_append_of_pos hfront, List.cons_append,
      List.takeWhile_cons_of_neg (by simp [hword]), List.append_nil]
  obtain rfl : mods = modifiers := by rw [← htake behind hmods, h, htake [last] hmodifiers]
  exact ⟨rfl, List.append_cancel_left (List.append_cancel_left h)⟩

/-- **A declarator in the place of another one is read in its place.** -/
theorem ofText?_redeclared {type name type' name' : List Char} (hlead : IsLead lead)
    (hne : gap ≠ []) (hgap : IsBlanks gap) (hwhole : IsWhole (type ++ ' ' :: name))
    (htype' : IsName type') (hmodifier : isModifier type' = false) (hname' : IsName name')
    (h : ofText? (lead ++ (type ++ (gap ++ (name ++ tail)))) = some p)
    (htype : p.type.toList = type) (hname : p.name.toList = name) :
    ofText? (lead ++ (type' ++ ' ' :: (name' ++ tail)))
      = some { p with type := String.ofList type', name := String.ofList name' } := by
  have hwhole' : IsWhole (type' ++ ' ' :: name') := isWhole_of_names htype' hname'
  -- The declarator is in front of the semantic and the default, the old one as well as the new one.
  have hold := ofText?_append_of_open (fun separator hseparator => openBehind?_declarator hlead hgap
    hwhole (List.mem_cons_of_mem _ hseparator)) tail
  have hnew := ofText?_append_of_open (fun separator hseparator => openBehind?_declarator hlead
    (List.forall_mem_singleton.2 (by decide) : IsBlanks [' ']) hwhole'
      (List.mem_cons_of_mem _ hseparator)) tail
  simp only [List.append_assoc, List.cons_append, List.nil_append] at hold hnew
  rw [hold] at h
  rw [hnew]
  generalize (cutTop ':' (undefaulted tail)).1 = declared at h ⊢
  generalize (cutTop ':' (undefaulted tail)).2 = semantic at h ⊢
  generalize (cutTop '=' tail).2 = default at h ⊢
  obtain ⟨modifiers, types, last, found, size, hwords, hmodifiers, htypes, hhead, hdeclarator, hfound,
    rfl⟩ := ofWords?_eq_some_iff.1 h
  rw [String.toList_ofList] at htype hname
  subst htype hname
  have hdense : ∀ word ∈ types, IsDense word := by
    intro word hword
    have hmem : word ∈ Text.words (lead ++ (joinWords types ++ (gap ++ (found ++ declared)))) := by
      rw [hwords]
      simp [hword]
    exact Text.isDense_of_mem_words hmem
  rw [hlead.words_append, Text.words_append_gap hne hgap, joinWords,
    Text.words_intercalate hdense] at hwords
  obtain ⟨rfl, hlast⟩ := eq_singleton_of_words hwords hlead.1 hmodifiers htypes hhead
  have hdenseLast : IsDense last := Text.isDense_of_mem_words (by rw [hlast]; exact List.mem_cons_self)
  have hprefix : found <+: last := by
    have hdeclared := prefix_declarator last
    rwa [hdeclarator] at hdeclared
  obtain ⟨y, behind, hword⟩ := Text.exists_words_of_isDense_append declared
  have hfoundLast := hword found ⟨hfound, fun c hc => hdenseLast.2 c (List.IsPrefix.subset hprefix hc)⟩
  rw [hlast] at hfoundLast
  obtain ⟨rfl, rfl⟩ := List.cons.inj hfoundLast
  have hsize := declarator_append hdeclarator (hname'.notMem (by decide))
  refine ofWords?_eq_some_iff.2 ⟨Text.words lead, [type'], name' ++ y, name', size, ?_, hlead.1,
    List.cons_ne_nil _ _, ?_, hsize, hname'.isDense.1, ?_⟩
  · rw [hlead.words_append, Text.words_append_cons (by decide), hword name' hname'.isDense,
      Text.words_of_isDense htype'.isDense]
  · rintro word ⟨⟩
    exact hmodifier
  · simp [joinWords]

/-! ## A declaration with a semantic -/

/-- A type, a name and a semantic behind modifiers are read as they are. -/
theorem ofText?_declared {type name semantic : List Char} (hlead : IsLead lead) (htype : IsName type)
    (hmodifier : isModifier type = false) (hname : IsName name) (hsemantic : IsName semantic) :
    ofText? (lead ++ (type ++ ' ' :: (name ++ (' ' :: ':' :: ' ' :: semantic)))) = some {
      type := String.ofList type
      name := String.ofList name
      semantic := some (String.ofList semantic)
      arraySize := none
      modifiers := (Text.words lead).map String.ofList
      default := none } := by
  have hwhole : IsWhole (type ++ ' ' :: name) := isWhole_of_names htype hname
  have hfront : ∀ separator ∈ ['=', ':'], openBehind? separator 0 (lead ++ (type ++ ([' '] ++ name)))
      = some 0 := fun separator hseparator => openBehind?_declarator hlead
    (List.forall_mem_singleton.2 (by decide)) hwhole (List.mem_cons_of_mem _ hseparator)
  have hread := ofText?_append_of_open hfront (' ' :: ':' :: ' ' :: semantic)
  have hequals : cutTop '=' (' ' :: ':' :: ' ' :: semantic)
      = (' ' :: ':' :: ' ' :: semantic, none) := by
    have hnotMem : '=' ∉ ' ' :: ':' :: ' ' :: semantic := by
      simpa using hsemantic.notMem (c := '=') (by decide)
    have hnone := Signature.cutTopFrom_append_of_notMem 0 hnotMem []
    rw [List.nil_append] at hnone
    rw [cutTop, hnone]
    rfl
  have hcolon : cutTop ':' (' ' :: ':' :: ' ' :: semantic) = ([' '], some (' ' :: semantic)) := rfl
  rw [undefaulted, hequals] at hread
  dsimp only at hread
  rw [hcolon] at hread
  simp only [List.append_assoc, List.cons_append, List.nil_append] at hread
  rw [hread]
  have hblank : IsBlanks [' '] := List.forall_mem_singleton.2 (by decide)
  refine ofWords?_eq_some_iff.2 ⟨Text.words lead, [type], name, name, none, ?_, hlead.1,
    List.cons_ne_nil _ _, ?_, declarator_of_isName hname, hname.isDense.1, ?_⟩
  · rw [hlead.words_append, Text.words_append_cons (by decide), Text.words_append_blanks hblank,
      Text.words_of_isDense htype.isDense, Text.words_of_isDense hname.isDense]
  · rintro word ⟨⟩
    exact hmodifier
  · have htrimmed : Text.trimmed (' ' :: semantic) = semantic :=
      (Text.trimmed_gap_append hblank semantic).trans (Text.trimmed_of_isDense hsemantic.isDense)
    simp [joinWords, htrimmed]

end Parameter

end ShaderMerge
