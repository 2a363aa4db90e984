import ShaderMerge.Proofs.Variant.SelectionCode
import ShaderMerge.Variant.SlicedTexture

/-!
# The slice of each material

A texture selects its slice by a number with a sign, where a negative one stands for no slice.
Numbers from 2³¹ on have no such form: they turn up as negative numbers, the greatest of them as
that of no slice.  All others are selected as they are given (`select_of_ofSlices?`), whichever
way the selection takes, and the functions that sample the texture fall back on the default color
exactly if some material has no slice.
-/

namespace ShaderMerge.Variant.SlicedTexture

open Selection (worth? constantArray?)

variable {slice : Option UInt32} {slices : List (Option UInt32)} {name default : String}
  {t : SlicedTexture}

/-! ## Slices as numbers -/

/-- The number that a slice is written as. -/
def sliceNumber (slice : Option UInt32) : Int := ((slice.map UInt32.toInt32).getD (-1)).toInt

theorem sliceValue_literal (slice : Option UInt32) :
    (sliceValue slice).literal = toString (sliceNumber slice) := rfl

/-- A number of 32 bits without a sign, read with one. -/
theorem sliceNumber_some (s : UInt32) : sliceNumber (some s)
    = if s.toNat < 2 ^ 31 then (s.toNat : Int) else s.toNat - 2 ^ 32 := by
  have hread : sliceNumber (some s) = s.toBitVec.toInt := rfl
  rw [hread, BitVec.toInt_eq_toNat_cond, UInt32.toNat]
  split <;> split <;> omega

theorem sliceNumber_some_eq_iff (s : UInt32) :
    sliceNumber (some s) = s.toNat ↔ s.toNat < 2 ^ 31 := by
  rw [sliceNumber_some]
  split <;> omega

/-- Negative numbers are those of no slice, and of slices too great. -/
theorem sliceNumber_lt_zero_iff : sliceNumber slice < 0 ↔ ∀ s, slice = some s → 2 ^ 31 ≤ s.toNat := by
  cases slice with
  | none => exact ⟨fun _ => nofun, fun _ => by decide⟩
  | some s =>
    have hlt : s.toNat < 2 ^ 32 := s.toNat_lt
    rw [sliceNumber_some]
    constructor
    · rintro hneg _ ⟨⟩
      split at hneg <;> omega
    · intro hgreat
      have := hgreat s rfl
      split <;> omega

/-- Slices are integers, which are their own common type. -/
theorem unify_sliceValue (slices : List (Option UInt32)) :
    Value.unify (slices.map sliceValue) = slices.map sliceValue := by
  have hvector : (slices.map sliceValue).any Value.isVector = false := by
    simp [sliceValue, Value.isVector]
  have hfloat : (slices.map sliceValue).any Value.isFloat = false := by
    simp [sliceValue, Value.isFloat]
  rw [Value.unify, hvector, hfloat]
  rfl

/-! ## The functions that sample -/

/-- What a function does first for a material without a slice. -/
def fallback (default : String) : String := "if (slice < 0) return " ++ default ++ "; "

/-- The first words of the functions that read the color of a texture. -/
def samplerHeads : List (List Char) :=
  ["float4 Sample(".toList, "float4 SampleBias(".toList, "float4 SampleLevel(".toList,
    "float4 SampleGrad(".toList, "float4 Load(".toList]

/-- Whether a line is one of the functions that read the color of a texture. -/
def isSampler (line : String) : Bool := samplerHeads.any (·.isPrefixOf line.toList)

/-- Whether no text that starts as a line does is one of the functions. -/
def isApart (front : String) : Bool :=
  samplerHeads.all fun head => !head.isPrefixOf front.toList && !front.toList.isPrefixOf head

theorem isSampler_of_isApart {line : String} (h : isApart line = true) : isSampler line = false := by
  refine List.any_eq_false.2 fun head hmem hhead => ?_
  have hapart := List.all_eq_true.1 h head hmem
  rw [hhead] at hapart
  cases hapart

theorem isSampler_append {front : String} (h : isSampler front = true) (rest : String) :
    isSampler (front ++ rest) = true := by
  obtain ⟨head, hmem, hhead⟩ := List.any_eq_true.1 h
  refine List.any_eq_true.2 ⟨head, hmem, ?_⟩
  rw [String.toList_append, List.isPrefixOf_iff_prefix]
  exact (List.isPrefixOf_iff_prefix.1 hhead).trans (List.prefix_append _ _)

theorem isApart_append {front : String} (h : isApart front = true) (rest : String) :
    isApart (front ++ rest) = true := by
  refine List.all_eq_true.2 fun head hmem => ?_
  have hapart := List.all_eq_true.1 h head hmem
  simp only [Bool.and_eq_true, Bool.not_eq_true', ← Bool.not_eq_true, List.isPrefixOf_iff_prefix,
    String.toList_append] at hapart ⊢
  refine ⟨fun hhead => ?_, fun hfront => hapart.2 ((List.prefix_append _ _).trans hfront)⟩
  exact (List.prefix_or_prefix_of_prefix hhead (List.prefix_append _ _)).elim hapart.1 hapart.2

theorem notMem_append {c : Char} {front rest : String} (hfront : c ∉ front.toList)
    (hrest : c ∉ rest.toList) : c ∉ (front ++ rest).toList := by
  rw [String.toList_append, List.mem_append, not_or]
  exact ⟨hfront, hrest⟩

/-- A literal has its characters; to look for one, the literal need not be decoded. -/
theorem notMem_ofList {c : Char} {cs : List Char} (h : c ∉ cs) : c ∉ (String.ofList cs).toList := by
  rwa [String.toList_ofList]

theorem isSampler_ofList {cs : List Char} (h : samplerHeads.any (·.isPrefixOf cs) = true) :
    isSampler (String.ofList cs) = true := by
  rwa [isSampler, String.toList_ofList]

theorem isApart_ofList {cs : List Char}
    (h : (samplerHeads.all fun head => !head.isPrefixOf cs && !cs.isPrefixOf head) = true) :
    isApart (String.ofList cs) = true := by
  rwa [isApart, String.toList_ofList]

/-- What stands in front of the code of a function that samples. -/
def opening (t : SlicedTexture) : String := if t.hasMissing then fallback t.default else ""

/-- Whether a line is one of the functions that sample, with the opening, or starts as another line;
neither has a comparison of its own. -/
def IsOpenedOrPlain (t : SlicedTexture) (line : String) : Prop :=
  (isSampler line = true ∧
    ∃ front rest, '<' ∉ front ∧ '<' ∉ rest ∧ line.toList = front ++ ((opening t).toList ++ rest)) ∨
  (isApart line = true ∧ '<' ∉ line.toList)

namespace IsOpenedOrPlain

theorem append {front rest : String} (h : IsOpenedOrPlain t front) (hrest : '<' ∉ rest.toList) :
    IsOpenedOrPlain t (front ++ rest) := by
  rcases h with ⟨hsampler, before, behind, hbefore, hbehind, hline⟩ | ⟨happart, hfree⟩
  · refine .inl ⟨isSampler_append hsampler rest, before, behind ++ rest.toList, hbefore, ?_, ?_⟩
    · rw [List.mem_append, not_or]
      exact ⟨hbehind, hrest⟩
    · rw [String.toList_append, hline, List.append_assoc, List.append_assoc]
  · exact .inr ⟨isApart_append happart rest, notMem_append hfree hrest⟩

theorem opened {front : String} (hsampler : isSampler front = true) (hfront : '<' ∉ front.toList) :
    IsOpenedOrPlain t
      (front ++ if t.hasMissing then "if (slice < 0) return " ++ t.default ++ "; " else "") := by
  refine .inl ⟨isSampler_append hsampler _, front.toList, [], hfront, List.not_mem_nil, ?_⟩
  rw [String.toList_append, List.append_nil]
  rfl

end IsOpenedOrPlain

theorem isOpenedOrPlain_declarations (hname : Text.IsName t.name.toList) :
    ∀ line ∈ t.declarations, IsOpenedOrPlain t line := by
  have hfree : '<' ∉ t.name.toList := Text.IsName.notMem hname (by decide)
  have harray : '<' ∉ t.arrayName.toList := notMem_append hfree (by simp)
  have hsampler : '<' ∉ t.samplerName.toList := notMem_append (notMem_append (by simp) hfree) (by simp)
  have htype : '<' ∉ t.typeName.toList := notMem_append (by simp) hfree
  have hself : '<' ∉ t.instanceName.toList := notMem_append (by simp) hfree
  dsimp only [declarations, toString]
  simp only [List.forall_mem_cons, List.not_mem_nil, false_imp_iff, implies_true, and_true]
  and_intros
  all_goals
    repeat with_reducible first | apply IsOpenedOrPlain.opened | apply IsOpenedOrPlain.append
  all_goals
    first
    | with_reducible assumption
    | exact notMem_ofList (by decide)
    | exact isSampler_ofList (by decide)
    | exact .inr ⟨isApart_ofList (by decide), notMem_ofList (by decide)⟩

theorem infix_fallback_iff {line : String} (h : IsOpenedOrPlain t line) :
    (fallback t.default).toList <:+: line.toList ↔ isSampler line = true ∧ t.hasMissing = true := by
  have hcomparison : '<' ∈ (fallback t.default).toList := by
    have hliteral : '<' ∈ "if (slice < 0) return ".toList := by simp
    have htext : fallback t.default = "if (slice < 0) return " ++ t.default ++ "; " := rfl
    rw [htext, String.toList_append, String.toList_append]
    exact List.mem_append_left _ (List.mem_append_left _ hliteral)
  have hplain : '<' ∉ line.toList → ¬ (fallback t.default).toList <:+: line.toList :=
    fun hfree hinfix => hfree (List.IsInfix.subset hinfix hcomparison)
  rcases h with ⟨hsampler, front, rest, hfront, hrest, hline⟩ | ⟨happart, hfree⟩
  · cases hmissing : t.hasMissing with
    | true =>
      rw [opening, if_pos hmissing] at hline
      exact iff_of_true ⟨front, rest, by rw [hline, List.append_assoc]⟩ ⟨hsampler, rfl⟩
    | false =>
      refine iff_of_false (hplain ?_) fun h => by cases h.2
      rw [hline, opening, hmissing, if_neg Bool.false_ne_true, List.mem_append, List.mem_append,
        not_or, not_or]
      exact ⟨hfront, List.not_mem_nil, hrest⟩
  · refine iff_of_false (hplain hfree) fun h => ?_
    rw [isSampler_of_isApart happart] at h
    cases h.1

/-! ## The selected slice -/

/-- **A texture selects the slices of its materials.**  There is one for any materials.  It selects
for each of them the number of its slice, whichever way the selection takes; a slice has its own
number exactly if it is below 2³¹, and a negative one stands for no slice or for a greater one.  The
functions that sample the texture fall back on the default color exactly if some material has no
slice, and nothing else in the declarations does. -/
theorem select_of_ofSlices? (name default : String) (hne : slices ≠ []) :
    ∃ t, ofSlices? name default slices = some t ∧
      (∀ i slice, slices[i]? = some slice →
        t.slice.select i = some (sliceValue slice) ∧
        (∀ material : String, Text.IsName name.toList → Text.IsName material.toList →
          worth? ((t.sliceDeclaration?).bind fun line => constantArray? line.toList) material.toList i
            (t.slice.expression t.sliceName material).toList
              = some (toString (sliceNumber slice)).toList) ∧
        (∀ s, slice = some s → (sliceNumber slice = s.toNat ↔ s.toNat < 2 ^ 31)) ∧
        (sliceNumber slice < 0 ↔ ∀ s, slice = some s → 2 ^ 31 ≤ s.toNat)) ∧
      (Text.IsName name.toList → ∀ line ∈ t.declarations,
        ((fallback default).toList <:+: line.toList ↔ isSampler line = true ∧ none ∈ slices)) := by
  have hgiven : slices.map sliceValue ≠ [] := by simpa using hne
  obtain ⟨selection, hselection, hfor⟩ := Selection.exists_ofValues? hgiven
  rw [unify_sliceValue] at hfor
  refine ⟨_, by rw [ofSlices?, hselection]; rfl, fun i slice hslice => ?_, fun hname line hline => ?_⟩
  · have hvalue : (slices.map sliceValue)[i]? = some (sliceValue slice) := by
      rw [List.getElem?_map, hslice]
      rfl
    have hselect := hfor.select_eq hvalue
    refine ⟨hselect, fun material hname hmaterial => ?_, ?_, sliceNumber_lt_zero_iff⟩
    · rw [← sliceValue_literal]
      have hsliceName : Text.IsName (name ++ "Slice").toList := by
        rw [String.toList_append]
        exact Text.isName_append hname (List.all_eq_true.1 (by decide))
      exact Selection.worth?_expression hsliceName hmaterial hselect
    · rintro s rfl
      exact sliceNumber_some_eq_iff s
  · have hiff := infix_fallback_iff (isOpenedOrPlain_declarations hname line hline)
    have hmissing : slices.any Option.isNone = true ↔ none ∈ slices := by
      rw [List.any_eq_true]
      simp
    rwa [← hmissing]

/-- The greatest number of a slice is selected as no slice. -/
theorem select_of_greatSlice : ∃ t, ofSlices? "_MainTex" "float4(1, 1, 1, 1)"
    [some 4294967295, none, some 3] = some t ∧
    t.slice.select 0 = t.slice.select 1 ∧ t.slice.select 2 = some (.int 3) ∧
    worth? ((t.sliceDeclaration?).bind fun line => constantArray? line.toList) "materialID".toList 0
      (t.slice.expression t.sliceName "materialID").toList = some "-1".toList := by
  obtain ⟨t, ht, hslices, -⟩ := select_of_ofSlices? "_MainTex" "float4(1, 1, 1, 1)"
    (List.cons_ne_nil (some 4294967295) [none, some 3])
  obtain ⟨hgreat, hworth, -⟩ := hslices 0 (some 4294967295) rfl
  obtain ⟨hnone, -⟩ := hslices 1 none rfl
  obtain ⟨hsmall, -⟩ := hslices 2 (some 3) rfl
  have hname : Text.IsName "_MainTex".toList :=
    ⟨'_', "MainTex".toList, rfl, by decide, List.all_eq_true.1 (by decide)⟩
  have hmaterial : Text.IsName "materialID".toList :=
    ⟨'m', "aterialID".toList, rfl, by decide, List.all_eq_true.1 (by decide)⟩
  have hnumber : sliceNumber (some 4294967295) = -1 := by decide
  refine ⟨t, ht, hgreat.trans hnone.symm, hsmall, ?_⟩
  rw [hworth "materialID" hname hmaterial, hnumber]
  rfl

end ShaderMerge.Variant.SlicedTexture
