import ShaderMerge.Proofs.Variant.EntryReading
import ShaderMerge.Proofs.Variant.SignatureText
import ShaderMerge.Proofs.Variant.VoidLists

/-!
# The header of a vertex stage

A vertex stage that is written anew has a header on its first line.  Apart from the return type,
which may be that of a carrier, it is the one that was read
(`EntryPoint.exists_header?_of_vertex`): neither the parameters that are put in nor an empty list
that is cleared change it.
-/

namespace ShaderMerge.Variant

open SignatureEdit
open Signature (Header)

namespace EntryPoint

variable {p : Plan} {s : Signature} {lines : List String} {e : EntryPoint} {header : Header}

/-- The reader of signatures finds the header first, and the parameters behind it. -/
theorem exists_header_of_ofText? {cs : List Char} (h : Signature.ofText? cs lines = some s) :
    ∃ header, Header.ofText? cs = some header ∧ s.name = String.ofList header.name ∧
      s.returnType = String.ofList header.returnType := by
  obtain ⟨header, hheader, hrest⟩ := Option.bind_eq_some_iff.1 h
  obtain ⟨⟨inner, after⟩, -, hrest⟩ := Option.bind_eq_some_iff.1 hrest
  obtain ⟨parameters, -, heq⟩ := Option.bind_eq_some_iff.1 hrest
  cases heq
  exact ⟨header, hheader, rfl, rfl⟩

theorem ofList_eq_void_iff {cs : List Char} : String.ofList cs = "void" ↔ cs = "void".toList := by
  rw [← String.toList_inj, String.toList_ofList]

/-- A line that is cleared of an empty list is a directive if it was one. -/
theorem startsPlain_of_clearVoidIn {cs : List Char} (h : StartsPlain (clearVoidIn cs)) :
    StartsPlain cs := by
  intro hhash
  obtain ⟨rest, rfl⟩ := List.head?_eq_some_iff.1 hhash
  have hsame : clearVoidIn (['#'] ++ rest) = ['#'] ++ clearVoidIn rest :=
    clearVoidIn_append_of_notMem (by decide) rest
  exact h (congrArg List.head? hsame)

/-- What is read of a signature is on its first line, an empty list of parameters apart. -/
theorem header_of_read? (hread : read? lines = some s) (h : header? (clearVoid lines) = some header) :
    String.ofList header.name = s.name ∧
      (header.returnType = "void".toList ↔ s.returnType = "void") := by
  cases lines with
  | nil => cases h
  | cons first rest =>
    obtain ⟨own, hown, rfl⟩ := Option.map_eq_some_iff.1 h
    rw [String.toList_ofList] at hown
    have hplain := isMarked_eq_false_iff.2 (startsPlain_of_clearVoidIn (startsPlain_of_header? hown))
    obtain ⟨found, hfound, hname, hreturn⟩ := exists_header_of_ofText? hread
    have hcode : (codeOf (first :: rest)).toList
        = first.toList ++ textBelow (rest.filter (!Directive.isMarked ·)) := by
      rw [codeOf, String.toList_intercalate, List.filter_cons_of_pos (by rw [hplain]; rfl)]
      exact joined_cons first _
    rw [hcode] at hfound
    rw [hname, hreturn, ofList_eq_void_iff]
    by_cases hsame : clearVoidIn first.toList = first.toList
    · rw [hsame] at hown
      cases (Signature.Header.ofText?_append hown _).symm.trans hfound
      exact ⟨rfl, Iff.rfl⟩
    · obtain ⟨htext, hfree⟩ := Signature.Header.ofText?_eq_some_iff.1 hfound
      obtain ⟨cleared, hcleared, hclearedRead, hsameName, hvoid⟩ := exists_header_clearVoidIn hfree
      rw [htext, clearVoidIn_append hsame] at hcleared
      have hread := Signature.Header.ofText?_eq_some_iff.2 ⟨hcleared, hclearedRead⟩
      cases (Signature.Header.ofText?_append hown _).symm.trans hread
      exact ⟨congrArg String.ofList hsameName, hvoid⟩

/-- A signature without a header on its first line is not edited. -/
theorem vertexLines_of_header?_eq_none (h : header? lines = none) : vertexLines p lines = lines := by
  have hcut : Cut.ofSignature? lines = none := by
    by_contra hsome
    obtain ⟨cut, hcut⟩ := Option.ne_none_iff_exists'.1 hsome
    obtain ⟨header, hheader, -⟩ := header?_of_cut hcut
    cases h.symm.trans hheader
  have hretyped : ∀ type, replaceReturnType type lines = lines := by
    intro type
    cases lines with
    | nil => rfl
    | cons first rest => rw [replaceReturnType, Option.map_eq_none_iff.1 h]
  rw [vertexLines]
  split
  · rw [removeReturnSemantic, hcut]
    exact hretyped _
  · split
    · rw [appendParameter, hcut]
    · rfl

/-- The edits in front of the first parameter change the return type alone. -/
theorem exists_header?_vertexLines (p : Plan) (h : header? lines = some header) : ∃ rest,
    header? (vertexLines p lines) = some { header with
      returnType := ((wrapper? p).map (·.name.toList)).getD header.returnType, rest } := by
  rw [vertexLines]
  cases hwrapper : wrapper? p with
  | some carrier =>
    obtain ⟨rest, hrest⟩ := exists_header?_removeReturnSemantic h
    exact ⟨rest, header?_replaceReturnType hrest carrier.isName_name carrier.name_notMem⟩
  | none =>
    dsimp only
    split
    · exact exists_header?_appendParameter packedOutput true h
    · exact ⟨header.rest, h⟩

theorem ofSignature_of_adapt {stage : Stage} (hread : read? lines = some s)
    (h : adapt stage p lines = .ok e) : ofSignature stage p s (clearVoid lines) = .ok e := by
  rw [adapt] at h
  rw [read?] at hread
  dsimp only at h
  rw [hread] at h
  cases stage <;> exact h

/-- A vertex stage is written anew only if its first line has a header. -/
theorem exists_header?_vertexLines_of_ok (h : vertex p s lines = .ok e) : ∃ header edited,
    header? lines = some header ∧ header? (vertexLines p lines) = some edited ∧
      header? e.signature = some { edited with rest := (packedParameter p.channel).toList
        ++ ((if !s.parameters.isEmpty then ", " else "").toList ++ edited.rest) } := by
  rw [vertex_eq] at h
  split at h
  · cases h
  · rename_i signature hsignature
    cases h
    obtain ⟨own, hown, hedited⟩ := header?_of_prependParameter? hsignature
    cases hheader : header? lines with
    | none =>
      rw [vertexLines_of_header?_eq_none hheader, hheader] at hown
      cases hown
    | some header => exact ⟨header, own, rfl, hown, hedited⟩

/-- **The header of a vertex stage that is written anew**: the function has its name, and it returns
nothing exactly if the plan leaves it without a value. -/
theorem exists_header?_of_vertex (hread : read? lines = some s)
    (h : vertex p s (clearVoid lines) = .ok e) : ∃ header, header? e.signature = some header ∧
      String.ofList header.name = s.name ∧
      (header.returnType = "void".toList ↔ returned p s = "void") := by
  obtain ⟨cleared, own, hclear, hown, hedited⟩ := exists_header?_vertexLines_of_ok h
  obtain ⟨rest, hrest⟩ := exists_header?_vertexLines p hclear
  cases hrest.symm.trans hown
  obtain ⟨hname, hvoid⟩ := header_of_read? hread hclear
  refine ⟨_, hedited, hname, ?_⟩
  rw [returned]
  cases wrapper? p with
  | none => exact hvoid
  | some carrier =>
    rw [← String.toList_inj]
    exact Iff.rfl

end EntryPoint

end ShaderMerge.Variant
