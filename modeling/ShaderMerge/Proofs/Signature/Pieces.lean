import Mathlib.Data.List.Infix
import Mathlib.Data.List.TakeWhile
import ShaderMerge.Proofs.Text.Pieces
import ShaderMerge.Signature.Function

/-!
# What a signature holds stands in its text

The readers of a signature cut its text into pieces.  The parts of a header append to the whole text
(`text_of_ofText?`), and the return type, the names of the parameters and the words of their types
are pieces of it.
-/

namespace ShaderMerge

/-! ## Pieces of a text -/

namespace Text

variable {cs rest : List Char}

theorem suffix_skipBlanks (cs : List Char) : skipBlanks cs <:+ cs := List.dropWhile_suffix _

theorem infix_trimmed (cs : List Char) : trimmed cs <:+: cs :=
  (prefix_dropEndWhile isBlank (skipBlanks cs)).isInfix.trans (suffix_skipBlanks cs).isInfix

/-- What a trimmed text starts with, it starts with behind the blanks. -/
theorem prefix_trimmed {ds : List Char} (h : ds <+: skipBlanks cs) : trimmed ds <+: skipBlanks cs := by
  have hskip : skipBlanks ds = ds := by
    cases ds with
    | nil => rfl
    | cons d ds =>
      obtain ⟨more, hmore⟩ := h
      have hd := isBlank_head_skipBlanks hmore.symm
      rw [skipBlanks, List.dropWhile_cons_of_neg (by simp [hd])]
  rw [trimmed, hskip]
  exact (prefix_dropEndWhile isBlank ds).trans h

theorem suffix_of_after? {word : String} (h : after? word cs = some rest) : rest <:+ cs := by
  rw [after?] at h
  split at h
  · cases h
    exact List.drop_suffix _ cs
  · cases h

theorem suffix_of_afterBlanks? (h : afterBlanks? cs = some rest) : rest <:+ cs := by
  cases cs with
  | nil => cases h
  | cons c cs =>
    rw [afterBlanks?] at h
    split at h
    · cases h
      exact (suffix_skipBlanks cs).trans (List.suffix_cons c cs)
    · cases h

theorem eq_of_afterChar? {c : Char} (h : afterChar? c cs = some rest) : cs = c :: rest := by
  cases cs with
  | nil => cases h
  | cons d cs =>
    rw [afterChar?] at h
    split at h
    · rename_i hd
      cases h
      rw [hd]
    · cases h

theorem append_of_until? {close : Char} {before : List Char}
    (h : until? close cs = some (before, rest)) : before ++ close :: rest = cs := by
  rw [until?] at h
  split at h
  · cases h
  · rename_i c after heq
    cases h
    have hclose : c = close := by
      have hhead := List.head?_dropWhile_not (· != close) cs
      rw [heq] at hhead
      simpa using hhead
    rw [← hclose, ← heq, hclose]
    exact List.takeWhile_append_dropWhile

/-- A word without a character stands in front of it or behind. -/
theorem infix_append_cons_iff {w front : List Char} {c : Char} (hc : c ∉ w) :
    w <:+: front ++ c :: rest ↔ w <:+: front ∨ w <:+: rest := by
  constructor
  · intro h
    rcases List.infix_append_iff.1 h with h | h | ⟨first, second, rfl, hfirst, hsecond⟩
    · exact .inl h
    · rcases List.infix_cons_iff.1 h with h | h
      · cases w with
        | nil => exact .inl List.nil_infix
        | cons d w =>
          rw [(List.cons_prefix_cons.1 h).1] at hc
          exact absurd List.mem_cons_self hc
      · exact .inr h
    · -- What stands on both sides holds the character itself.
      cases second with
      | nil =>
        rw [List.append_nil]
        exact .inl hfirst.isInfix
      | cons d second =>
        rw [(List.cons_prefix_cons.1 hsecond).1] at hc
        exact absurd (List.mem_append_right first List.mem_cons_self) hc
  · rintro (h | h)
    · exact h.trans (List.prefix_append front (c :: rest)).isInfix
    · exact h.trans ((List.suffix_cons c rest).trans (List.suffix_append front _)).isInfix

/-- Whether a text has been cut into pieces: the first one starts it. -/
def IsCut (pieces : List (List Char)) (cs : List Char) : Prop :=
  ∃ first others, pieces = first :: others ∧ first <+: cs ∧ ∀ piece ∈ others, piece <:+: cs

theorem IsCut.infix_of_mem {pieces : List (List Char)} (h : IsCut pieces cs) {piece : List Char}
    (hpiece : piece ∈ pieces) : piece <:+: cs := by
  obtain ⟨first, others, rfl, hfirst, hothers⟩ := h
  rcases List.mem_cons.1 hpiece with rfl | hpiece
  · exact hfirst.isInfix
  · exact hothers piece hpiece

theorem isCut_nil : IsCut [[]] [] :=
  ⟨[], [], rfl, List.prefix_refl [], fun _ hpiece => absurd hpiece List.not_mem_nil⟩

/-- A character may be left out where a piece starts. -/
theorem IsCut.skip {pieces : List (List Char)} (h : IsCut pieces cs) (c : Char) :
    IsCut ([] :: pieces) (c :: cs) :=
  ⟨[], pieces, rfl, List.nil_prefix, fun _ hpiece => List.infix_cons (h.infix_of_mem hpiece)⟩

theorem IsCut.cons {piece : List Char} {pieces : List (List Char)} (h : IsCut (piece :: pieces) cs)
    (c : Char) : IsCut ((c :: piece) :: pieces) (c :: cs) := by
  obtain ⟨first, others, heq, hfirst, hothers⟩ := h
  cases heq
  exact ⟨c :: piece, pieces, rfl, List.cons_prefix_cons.2 ⟨rfl, hfirst⟩,
    fun other hother => List.infix_cons (hothers other hother)⟩

theorem isCut_splitWhere (p : Char → Bool) (cs : List Char) : IsCut (splitWhere p cs) cs := by
  induction cs with
  | nil => exact isCut_nil
  | cons c rest ih =>
    rw [splitWhere]
    split
    · exact ih.skip c
    · split
      · rename_i hnil
        exact absurd hnil (splitWhere_ne_nil p rest)
      · rename_i piece pieces heq
        rw [heq] at ih
        exact ih.cons c

theorem infix_of_mem_words {word : List Char} (h : word ∈ words cs) : word <:+: cs :=
  (isCut_splitWhere isBlank cs).infix_of_mem (List.mem_filter.1 h).1

end Text

namespace Signature

variable {cs : List Char} {header : Header}

theorem isCut_splitTopFrom (separator : Char) (depth : Int) (cs : List Char) :
    Text.IsCut (splitTopFrom separator depth cs) cs := by
  induction cs generalizing depth with
  | nil => exact Text.isCut_nil
  | cons c rest ih =>
    rw [splitTopFrom]
    split
    · exact (ih depth).skip c
    · have hrest := ih (depth + bracketStep c)
      split
      · rename_i hnil
        obtain ⟨first, others, heq, -⟩ := hrest
        rw [hnil] at heq
        cases heq
      · rename_i piece pieces heq
        rw [heq] at hrest
        exact hrest.cons c

theorem prefix_cutTop (separator : Char) (cs : List Char) : (cutTop separator cs).1 <+: cs := by
  rw [cutTop]
  split
  · rename_i before after hcut
    exact ⟨separator :: after, append_of_cutTopFrom hcut⟩
  · exact List.prefix_refl cs

/-! ## Headers -/

theorem append_attributes (cs : List Char) : (attributes cs).1 ++ (attributes cs).2 = cs := by
  fun_induction attributes cs with
  | case1 inner body after found more rest heq ih =>
    rw [heq] at ih
    have hmore : more ++ rest = Text.skipBlanks after := ih
    conv_rhs => rw [← Text.append_of_until? found, ← Text.takeWhile_append_skipBlanks after, ← hmore]
    simp
  | case2 => rfl
  | case3 => rfl

theorem append_typeArguments (cs : List Char) :
    (typeArguments cs).1 ++ (typeArguments cs).2 = cs := by
  rw [typeArguments.eq_def]
  split
  · split
    · rename_i found
      rw [← Text.append_of_until? found]
      simp
    · rfl
  · rfl

/-- The parts of a header behind its lead, and the blank between its type and its name. -/
theorem text_of_bareHeader? {lead : List Char} (h : bareHeader? lead cs = some header) :
    header.text = lead ++ cs ∧ ∃ b gap, header.gap = b :: gap ∧ Text.isBlank b = true := by
  simp only [bareHeader?, Option.bind_eq_bind, Option.bind_eq_some_iff] at h
  obtain ⟨⟨word, cs₁⟩, hword, h⟩ := h
  have hargs := append_typeArguments cs₁
  generalize typeArguments cs₁ = found at h hargs
  obtain ⟨args, cs₂⟩ := found
  dsimp only at h hargs
  split at h
  · cases h
  · rename_i hgap
    simp only [Option.bind_eq_some_iff] at h
    obtain ⟨⟨name, cs₃⟩, hname, rest, hrest, heq⟩ := h
    cases heq
    constructor
    · conv_rhs =>
        rw [← Text.append_of_name? hword, ← hargs, ← Text.takeWhile_append_skipBlanks cs₂,
          ← Text.append_of_name? hname, ← Text.takeWhile_append_skipBlanks cs₃,
          Text.eq_of_afterChar? hrest]
      simp [Header.text, Header.front]
    · obtain ⟨b, gap, hblanks⟩ := List.exists_cons_of_ne_nil (List.isEmpty_eq_false_iff.1
        (Bool.eq_false_iff.2 hgap))
      have hb : b ∈ cs₂.takeWhile Text.isBlank := by simp [hblanks]
      exact ⟨b, gap, hblanks, List.mem_takeWhile_imp hb⟩

theorem suffix_of_afterModifier? {rest : List Char} (h : afterModifier? cs = some rest) :
    rest <:+ cs := by
  obtain ⟨after, hafter, hblanks⟩ := Option.bind_eq_some_iff.1 h
  obtain ⟨word, -, hword⟩ := List.exists_of_findSome?_eq_some hafter
  exact (Text.suffix_of_afterBlanks? hblanks).trans (Text.suffix_of_after? hword)

theorem text_of_modifiedHeader? {lead : List Char} (h : modifiedHeader? lead cs = some header) :
    header.text = lead ++ cs ∧ ∃ b gap, header.gap = b :: gap ∧ Text.isBlank b = true := by
  fun_induction modifiedHeader? lead cs with
  | case1 lead cs rest found header' heq ih =>
    cases h
    obtain ⟨htext, hgap⟩ := ih heq
    refine ⟨?_, hgap⟩
    rw [htext, List.append_assoc, ← List.suffix_iff_eq_append.1 (suffix_of_afterModifier? found)]
    simp
  | case2 lead cs rest found heq ih => exact text_of_bareHeader? h
  | case3 lead cs found => exact text_of_bareHeader? h

/-- **The parts of a header and the rest append to the whole text**, and between the type and the name
stands a blank. -/
theorem text_of_ofText? (h : Header.ofText? cs = some header) :
    header.text = cs ∧ ∃ b gap, header.gap = b :: gap ∧ Text.isBlank b = true := by
  rw [Header.ofText?] at h
  obtain ⟨htext, hgap⟩ := text_of_modifiedHeader? (Option.filter_eq_some_iff.1 h).1
  exact ⟨htext.trans (append_attributes cs), hgap⟩

end Signature

/-! ## Parameters -/

namespace Parameter

variable {cs w : List Char} {p : Parameter}

/-- What stands in some words joined by spaces, and has none, stands in one of them. -/
theorem exists_word_of_joinWords {words : List (List Char)} (hspace : ' ' ∉ w) (hw : w ≠ [])
    (h : w <:+: joinWords words) : ∃ word ∈ words, w <:+: word := by
  induction words with
  | nil => exact absurd (List.eq_nil_of_infix_nil h) hw
  | cons word rest ih =>
    cases rest with
    | nil =>
      rw [joinWords, List.intercalate_singleton] at h
      exact ⟨word, List.mem_cons_self, h⟩
    | cons next rest =>
      rw [joinWords, List.intercalate_cons_cons, List.append_assoc] at h
      rcases (Text.infix_append_cons_iff hspace).1 h with h | h
      · exact ⟨word, List.mem_cons_self, h⟩
      · obtain ⟨found, hmem, hfound⟩ := ih h
        exact ⟨found, List.mem_cons_of_mem word hmem, hfound⟩

theorem prefix_declarator (cs : List Char) : (declarator cs).1 <+: cs := by
  rw [declarator.eq_def]
  split
  · exact List.prefix_refl cs
  · exact List.takeWhile_prefix _

/-- The name of a parameter and the words of its type are pieces of its declaration. -/
theorem pieces_of_ofText? (h : ofText? cs = some p) :
    p.name.toList <:+: cs ∧ ∃ words, p.type.toList = joinWords words ∧
      ∀ word ∈ words, word <:+: cs := by
  simp only [ofText?, Option.bind_eq_bind, Option.bind_eq_some_iff] at h
  obtain ⟨last, hlast, h⟩ := h
  split at h
  · cases h
  · cases h
    have hdeclaration := (Signature.prefix_cutTop ':' _).trans (Signature.prefix_cutTop '=' cs)
    have hword : ∀ word ∈ Text.words (Signature.cutTop ':' (Signature.cutTop '=' cs).1).1,
        word <:+: cs :=
      fun word hword => (Text.infix_of_mem_words hword).trans hdeclaration.isInfix
    have hrest : ∀ word, word ∈ (Text.words
        (Signature.cutTop ':' (Signature.cutTop '=' cs).1).1).dropWhile (fun word =>
          modifierWords.contains (String.ofList word)) → word <:+: cs :=
      fun word hmem => hword word ((List.dropWhile_suffix _).subset hmem)
    refine ⟨?_, _, String.toList_ofList, fun word hmem => hrest word (List.mem_of_mem_dropLast hmem)⟩
    have hname := (prefix_declarator last).isInfix.trans (hrest last (List.mem_of_getLast? hlast))
    rwa [String.toList_ofList]

end Parameter

/-! ## Signatures -/

namespace Signature

variable {text : List Char} {lines : List String} {s : Signature}

theorem exists_piece_of_parameters? {inner : List Char} {parameters : List Parameter}
    (h : parameters? inner = some parameters) {p : Parameter} (hp : p ∈ parameters) :
    ∃ piece, piece <:+: inner ∧ Parameter.ofText? piece = some p := by
  rw [parameters?.eq_def] at h
  dsimp only at h
  split at h
  · cases h
    cases hp
  · have hpieces : ∀ piece ∈ splitTopFrom ',' 0 (Text.trimmed inner),
        piece <:+: Text.trimmed inner :=
      fun _ => (isCut_splitTopFrom ',' 0 (Text.trimmed inner)).infix_of_mem
    rw [splitTop] at h
    generalize splitTopFrom ',' 0 (Text.trimmed inner) = pieces at h hpieces
    induction pieces generalizing parameters with
    | nil =>
      cases h
      cases hp
    | cons piece rest ih =>
      simp only [List.mapM_cons, Option.bind_eq_bind, Option.bind_eq_some_iff] at h
      obtain ⟨first, hfirst, others, hothers, heq⟩ := h
      cases heq
      rcases List.mem_cons.1 hp with rfl | hp
      · exact ⟨piece, (hpieces piece List.mem_cons_self).trans (Text.infix_trimmed inner), hfirst⟩
      · exact ih hp hothers fun other hmem => hpieces other (List.mem_cons_of_mem piece hmem)

/-- **What a signature holds stands in its text**: its return type, and the names of its parameters
and the words of their types. -/
theorem pieces_of_ofText? (h : ofText? text lines = some s) :
    s.returnType.toList <:+: text ∧ ∀ p ∈ s.parameters, p.name.toList <:+: text ∧
      ∀ w : List Char, ' ' ∉ w → w ≠ [] → w <:+: p.type.toList → w <:+: text := by
  simp only [ofText?, Option.bind_eq_bind, Option.bind_eq_some_iff] at h
  obtain ⟨header, hheader, ⟨inner, after⟩, hclosing, parameters, hparameters, heq⟩ := h
  cases heq
  obtain ⟨htext, -⟩ := text_of_ofText? hheader
  have hrest : header.rest <:+ text := by
    rw [← htext]
    exact List.suffix_append header.front header.rest
  have hinner : inner <:+: text := by
    have hprefix : inner <+: header.rest := ⟨')' :: after, append_of_closing? hclosing⟩
    exact hprefix.isInfix.trans hrest.isInfix
  refine ⟨?_, fun p hp => ?_⟩
  · rw [String.toList_ofList, ← htext]
    exact ⟨header.lead, header.gap ++ header.name ++ header.space ++ ['('] ++ header.rest,
      by simp [Header.text, Header.front]⟩
  · obtain ⟨piece, hpiece, hread⟩ := exists_piece_of_parameters? hparameters hp
    obtain ⟨hname, words, htype, hwords⟩ := Parameter.pieces_of_ofText? hread
    have hwhole := hpiece.trans hinner
    refine ⟨hname.trans hwhole, fun w hspace hw htypes => ?_⟩
    rw [htype] at htypes
    obtain ⟨word, hword, hin⟩ := Parameter.exists_word_of_joinWords hspace hw htypes
    exact (hin.trans (hwords word hword)).trans hwhole

end Signature

end ShaderMerge
