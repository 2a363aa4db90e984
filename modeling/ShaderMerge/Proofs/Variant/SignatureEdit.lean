import ShaderMerge.Proofs.Signature.Pieces
import ShaderMerge.Proofs.Variant.Structure

/-!
# Editing a signature keeps its structure

The structural lines of a signature are the same behind every edit (the `filter_` lemmas).  An edit
only ever changes lines that have a parenthesis, a blank or a name in them, and what it puts in
their place has one again; the one line that it may take away starts with a colon.
-/

namespace ShaderMerge.Variant

open Signature (Header)

/-! ## What the readers find in a text -/

theorem isStructuralChar_of_isBlank {c : Char} (h : Text.isBlank c = true) :
    isStructuralChar c = false := by
  have hbraces : c ≠ '{' ∧ c ≠ '}' ∧ c ≠ ';' := by
    refine ⟨?_, ?_, ?_⟩ <;> rintro rfl <;> revert h <;> decide
  have hupper : c.isUpper = false := by
    refine decide_eq_false ?_
    rintro ⟨hlow, hhigh⟩
    have hlow : 65 ≤ c.toNat := hlow
    have hhigh : c.toNat ≤ 90 := hhigh
    simp only [Text.isBlank, Bool.or_eq_true, Bool.and_eq_true, decide_eq_true_eq, beq_iff_eq] at h
    omega
  rw [isStructuralChar, hupper]
  simp [hbraces]

theorem skipBlanks_subset (cs : List Char) : Text.skipBlanks cs ⊆ cs :=
  (Text.suffix_skipBlanks cs).subset

theorem subset_of_after? {word : String} {cs rest : List Char}
    (h : Text.after? word cs = some rest) : word.toList ⊆ cs ∧ rest ⊆ cs := by
  refine ⟨?_, (Text.suffix_of_after? h).subset⟩
  rw [Text.after?] at h
  split at h
  · rename_i hword
    exact (List.isPrefixOf_iff_prefix.1 hword).subset
  · cases h

theorem mem_of_afterChar? {c : Char} {cs rest : List Char}
    (h : Text.afterChar? c cs = some rest) : c ∈ cs ∧ rest ⊆ cs := by
  rw [Text.eq_of_afterChar? h]
  exact ⟨List.mem_cons_self, List.subset_cons_self c rest⟩

/-- Between two pieces of a text that must be apart stands a blank. -/
theorem exists_mem_of_afterBlanks? {cs rest : List Char} (h : Text.afterBlanks? cs = some rest) :
    (∃ c ∈ cs, isStructuralChar c = false) ∧ rest ⊆ cs := by
  refine ⟨?_, (Text.suffix_of_afterBlanks? h).subset⟩
  cases cs with
  | nil => cases h
  | cons d ds =>
    rw [Text.afterBlanks?] at h
    split at h
    · rename_i hd
      exact ⟨d, List.mem_cons_self, isStructuralChar_of_isBlank hd⟩
    · cases h

theorem subset_of_name? {cs name rest : List Char} (h : Text.name? cs = some (name, rest)) :
    rest ⊆ cs := by
  rw [← Text.append_of_name? h]
  exact List.subset_append_right name rest

/-! ## Headers -/

theorem mem_front (header : Header) : '(' ∈ header.front := by
  rw [Header.front]
  simp

/-- A text that starts with the header of a function has its parenthesis. -/
theorem mem_of_header? {cs : List Char} {header : Header} (h : Header.ofText? cs = some header) :
    '(' ∈ cs := by
  rw [← (Signature.text_of_ofText? h).1, Header.text]
  exact List.mem_append_left _ (mem_front header)

theorem isStructural_of_header? {line : String} {header : Header}
    (h : Header.ofText? line.toList = some header) : isStructural line = false :=
  isStructural_of_mem (mem_of_header? h) (by decide)

/-! ## Edits -/

namespace SignatureEdit

variable {lines edited : List String}

/-- One line may take the place of another if neither is structural. -/
theorem filter_cons_congr {first second : String} (rest : List String)
    (hfirst : isStructural first = false) (hsecond : isStructural second = false) :
    (first :: rest).filter isStructural = (second :: rest).filter isStructural := by
  rw [List.filter_cons_of_neg (Bool.eq_false_iff.1 hfirst),
    List.filter_cons_of_neg (Bool.eq_false_iff.1 hsecond)]

theorem isStructural_cut (cut : Cut) :
    isStructural (String.ofList (cut.before ++ ')' :: cut.after)) = false :=
  isStructural_ofList (c := ')') (by simp) (by decide)

/-- Around the parenthesis of a cut nothing is structural. -/
theorem filter_cut (cut : Cut) : cut.lines.filter isStructural
    = cut.above.filter isStructural ++ cut.below.filter isStructural := by
  rw [Cut.lines, List.filter_append,
    List.filter_cons_of_neg (Bool.eq_false_iff.1 (isStructural_cut cut))]

theorem filter_ofSignature? {cut : Cut} (h : Cut.ofSignature? lines = some cut) :
    cut.lines.filter isStructural = lines.filter isStructural := by
  cases lines with
  | nil => cases h
  | cons first rest =>
    obtain ⟨header, hheader, h⟩ := Option.bind_eq_some_iff.1 h
    split at h
    · cases h
      exact filter_cons_congr rest (isStructural_cut ⟨[], _, _, rest⟩)
        (isStructural_of_header? hheader)
    · obtain ⟨inner, hinner, rfl⟩ := Option.map_eq_some_iff.1 h
      have hlines : (inner.addAbove first).lines = first :: inner.lines := rfl
      rw [hlines, lines_of_ofLines? hinner]

theorem filter_prependParameter? {parameter : String} {hasOthers : Bool}
    (h : prependParameter? parameter hasOthers lines = some edited) :
    edited.filter isStructural = lines.filter isStructural := by
  cases lines with
  | nil => cases h
  | cons first rest =>
    obtain ⟨header, hheader, rfl⟩ := Option.map_eq_some_iff.1 h
    refine filter_cons_congr rest (isStructural_ofList (c := '(') ?_ (by decide))
      (isStructural_of_header? hheader)
    simp [mem_front]

theorem filter_appendParameter (parameter : String) (hasOthers : Bool) (lines : List String) :
    (appendParameter parameter hasOthers lines).filter isStructural
      = lines.filter isStructural := by
  rw [appendParameter]
  split
  · rfl
  · rename_i cut hcut
    rw [filter_cut, ← filter_ofSignature? hcut, filter_cut]

theorem isStructural_of_startsWithColon {line : String}
    (h : startsWithColon line.toList = true) : isStructural line = false := by
  rw [startsWithColon, beq_iff_eq] at h
  exact isStructural_of_mem (skipBlanks_subset _ (List.mem_of_mem_head? h)) (by decide)

theorem filter_removeReturnSemantic (lines : List String) :
    (removeReturnSemantic lines).filter isStructural = lines.filter isStructural := by
  rw [removeReturnSemantic]
  split
  · rfl
  · rename_i cut hcut
    split
    · rw [filter_cut, ← filter_ofSignature? hcut, filter_cut]
    · split
      · rfl
      · rename_i next below hbelow
        split
        · rename_i hcolon
          rw [filter_cut, ← filter_ofSignature? hcut, filter_cut, hbelow,
            List.filter_cons_of_neg (Bool.eq_false_iff.1 (isStructural_of_startsWithColon hcolon))]
        · rfl

theorem filter_replaceReturnType (type : String) (lines : List String) :
    (replaceReturnType type lines).filter isStructural = lines.filter isStructural := by
  cases lines with
  | nil => rfl
  | cons first rest =>
    rw [replaceReturnType]
    split
    · rename_i header hheader
      refine filter_cons_congr rest (isStructural_ofList (c := '(') ?_ (by decide))
        (isStructural_of_header? hheader)
      rw [Header.text]
      exact List.mem_append_left _ (mem_front _)
    · rfl

/-- An edit of the first line that has a place for it. -/
theorem filter_editFirst? {edit : List Char → Option (List Char)}
    (hedit : ∀ cs out, edit cs = some out →
      (∃ c ∈ cs, isStructuralChar c = false) ∧ ∃ c ∈ out, isStructuralChar c = false)
    (h : editFirst? edit lines = some edited) :
    edited.filter isStructural = lines.filter isStructural := by
  induction lines generalizing edited with
  | nil => cases h
  | cons line rest ih =>
    rw [editFirst?] at h
    split at h
    · rename_i out hout
      cases h
      split at hout
      · cases hout
      · obtain ⟨⟨c, hc, hcs⟩, ⟨d, hd, hds⟩⟩ := hedit _ out hout
        exact filter_cons_congr rest (isStructural_ofList hd hds) (isStructural_of_mem hc hcs)
    · obtain ⟨others, hothers, rfl⟩ := Option.map_eq_some_iff.1 h
      rw [List.filter_cons, List.filter_cons, ih hothers]

theorem replaceDeclared?_spec {type name replacement : String} {before : Option Char}
    {cs out : List Char} (h : replaceDeclared? type name replacement before cs = some out) :
    (∃ c ∈ cs, isStructuralChar c = false) ∧ replacement.toList ⊆ out := by
  induction cs generalizing before out with
  | nil => cases h
  | cons c rest ih =>
    rw [replaceDeclared?] at h
    split at h
    · rename_i after hafter
      cases h
      refine ⟨?_, List.subset_append_left _ _⟩
      simp only [afterDeclared?, Option.bind_eq_bind, Option.bind_eq_some_iff] at hafter
      obtain ⟨behindType, htype, behindBlanks, hblanks, -⟩ := hafter
      obtain ⟨⟨d, hd, hds⟩, -⟩ := exists_mem_of_afterBlanks? hblanks
      exact ⟨d, (subset_of_after? htype).2 hd, hds⟩
    · obtain ⟨others, hothers, rfl⟩ := Option.map_eq_some_iff.1 h
      obtain ⟨⟨d, hd, hds⟩, hsub⟩ := ih hothers
      exact ⟨⟨d, List.mem_cons_of_mem c hd, hds⟩,
        List.Subset.trans hsub (List.subset_cons_self c others)⟩

theorem filter_replaceParameter? {type name replacement : String}
    (hreplacement : ∃ c ∈ replacement.toList, isStructuralChar c = false)
    (h : replaceParameter? type name replacement lines = some edited) :
    edited.filter isStructural = lines.filter isStructural := by
  refine filter_editFirst? (fun cs out hout => ?_) h
  obtain ⟨hcs, hsub⟩ := replaceDeclared?_spec hout
  obtain ⟨c, hc, hchar⟩ := hreplacement
  exact ⟨hcs, c, hsub hc, hchar⟩

/-- Where the vertices of a stream are replaced, its word stays. -/
theorem replaceVertexIn?_spec {vertex replacement : String} {cs out : List Char}
    (h : replaceVertexIn? vertex replacement cs = some out) :
    "Stream".toList ⊆ cs ∧ "Stream".toList ⊆ out := by
  induction cs generalizing out with
  | nil => cases h
  | cons c rest ih =>
    rw [replaceVertexIn?] at h
    split at h
    · rename_i edited hedited
      cases h
      simp only [withStreamVertex?, Option.bind_eq_bind, Option.bind_eq_some_iff] at hedited
      obtain ⟨behind, hstream, inner, -, after, -, _, -, hout⟩ := hedited
      refine ⟨(subset_of_after? hstream).1, ?_⟩
      cases hout
      simp only [List.append_assoc]
      exact List.subset_append_left _ _
    · obtain ⟨others, hothers, rfl⟩ := Option.map_eq_some_iff.1 h
      obtain ⟨hcs, hout⟩ := ih hothers
      exact ⟨List.Subset.trans hcs (List.subset_cons_self c rest),
        List.Subset.trans hout (List.subset_cons_self c others)⟩

theorem filter_replaceStreamVertex? {vertex replacement : String}
    (h : replaceStreamVertex? vertex replacement lines = some edited) :
    edited.filter isStructural = lines.filter isStructural := by
  refine filter_editFirst? (fun cs out hout => ?_) h
  obtain ⟨hcs, hout⟩ := replaceVertexIn?_spec hout
  exact ⟨⟨'t', hcs (by decide), by decide⟩, 't', hout (by decide), by decide⟩

theorem clearVoidIn_eq_or_mem (cs : List Char) :
    clearVoidIn cs = cs ∨ '(' ∈ cs ∧ '(' ∈ clearVoidIn cs := by
  induction cs with
  | nil => exact .inl rfl
  | cons c rest ih =>
    rw [clearVoidIn]
    split
    · rename_i after hafter
      rw [afterVoidList?] at hafter
      obtain ⟨inner, hinner, -⟩ := Option.bind_eq_some_iff.1 hafter
      exact .inr ⟨(mem_of_afterChar? hinner).1, List.mem_cons_self⟩
    · rcases ih with ih | ⟨hcs, hout⟩
      · exact .inl (by rw [ih])
      · exact .inr ⟨List.mem_cons_of_mem c hcs, List.mem_cons_of_mem c hout⟩

theorem filter_clearVoid (lines : List String) :
    (clearVoid lines).filter isStructural = lines.filter isStructural := by
  cases lines with
  | nil => rfl
  | cons first rest =>
    rw [clearVoid]
    rcases clearVoidIn_eq_or_mem first.toList with heq | ⟨hcs, hout⟩
    · rw [heq, String.ofList_toList]
    · exact filter_cons_congr rest (isStructural_ofList hout (by decide))
        (isStructural_of_mem hcs (by decide))

end SignatureEdit

end ShaderMerge.Variant
