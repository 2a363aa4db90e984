import ShaderMerge.LogicalLine
import ShaderMerge.Proofs.Include.Run
import ShaderMerge.Proofs.Text.Pieces

/-!
# The names that conditions compare

While a file is cut into logical lines, the names compared in the conditions of its regions are noted.
The names of a condition are the ones in front of its relation signs, so each comparison that can decide
the condition is of one of them (`mem_comparedNames_of_read?`), and values that agree on them come to the
same outcome (`decide_congr`).

A region is noted where a line of the file, without its comments, starts with `#ifex`
(`regionNames_ofRaw`).  A line with blanks between the sign and the word opens a region as well
(`Region.Control.ofLine`), but its names are not noted.
-/

namespace ShaderMerge.Region

open Text (IsBlanks IsName Stops isNameStart isNameChar)

variable {cs front rest : List Char}

/-! ## Relation signs -/

/-- A relation sign does not reach over an `&`. -/
theorem Relation.read?_append_and {relation : Relation} {tail : List Char}
    (h : Relation.read? (front ++ '&' :: rest) = some (relation, tail)) :
    ∃ left, tail = left ++ '&' :: rest := by
  match front with
  | [] => cases h
  | [c] =>
    rw [List.singleton_append] at h
    unfold Relation.read? at h
    split at h <;> simp_all
  | c :: d :: front =>
    rw [List.cons_append, List.cons_append] at h
    unfold Relation.read? at h
    split at h <;> cases h <;> rename_i heq <;> cases heq
    · exact ⟨front, rfl⟩
    · exact ⟨front, rfl⟩
    · exact ⟨front, rfl⟩
    · exact ⟨front, rfl⟩
    · exact ⟨d :: front, rfl⟩
    · exact ⟨d :: front, rfl⟩

/-- A text that starts with a relation sign does so whatever follows it. -/
theorem Relation.isSome_read?_append (h : (Relation.read? cs).isSome = true) (rest : List Char) :
    (Relation.read? (cs ++ rest)).isSome = true := by
  unfold Relation.read? at h
  split at h
  · rfl
  · rfl
  · rfl
  · rfl
  · rename_i tail hne
    rw [List.cons_append, Relation.read?.eq_def]
    split <;> simp_all
  · rename_i tail hne
    rw [List.cons_append, Relation.read?.eq_def]
    split <;> simp_all
  · cases h

/-! ## The names of a condition -/

theorem dropWhile_append_cons {p : Char → Bool} {c : Char} (hc : p c = false)
    (front rest : List Char) :
    (front ++ c :: rest).dropWhile p = front.dropWhile p ++ c :: rest := by
  rw [List.dropWhile_append]
  split
  · rename_i hempty
    rw [List.isEmpty_iff.1 hempty, List.dropWhile_cons, hc]
    rfl
  · rfl

/-- The names behind an `&` are found whatever stands in front of it. -/
theorem comparedNames_subset_append (front rest : List Char) :
    comparedNames rest ⊆ comparedNames (front ++ '&' :: rest) := by
  induction hlength : front.length using Nat.strongRecOn generalizing front with
  | ind n ih =>
    subst hlength
    cases front with
    | nil =>
      rw [List.nil_append, comparedNames, if_neg (by decide)]
      exact List.Subset.refl _
    | cons c front =>
      rw [List.cons_append, comparedNames]
      split
      · have hafter := dropWhile_append_cons (p := isNameChar) (c := '&') (by decide) front rest
        have hblanks := dropWhile_append_cons (p := Text.isBlank) (c := '&') (by decide)
          (front.dropWhile isNameChar) rest
        rw [← hafter] at hblanks
        have hle : (front.dropWhile isNameChar).length ≤ front.length :=
          (List.dropWhile_sublist _).length_le
        have hle' := (List.dropWhile_sublist (l := front.dropWhile isNameChar) Text.isBlank).length_le
        dsimp only
        split
        · rename_i relation tail hread
          rw [Text.skipBlanks, hblanks] at hread
          have hshorter := Relation.length_lt_of_read? hread
          obtain ⟨left, rfl⟩ := Relation.read?_append_and hread
          have hlt : left.length < front.length + 1 := by
            simp only [List.length_append, List.length_cons] at hshorter
            omega
          exact List.Subset.trans (ih _ hlt left rfl) (List.subset_cons_self _ _)
        · rw [hafter]
          exact ih _ (Nat.lt_succ_of_le hle) _ rfl
      · exact ih _ (Nat.lt_succ_self _) front rfl

/-- Blanks hold no names. -/
theorem comparedNames_append_of_isBlanks {gap : List Char} (hgap : IsBlanks gap) (rest : List Char) :
    comparedNames (gap ++ rest) = comparedNames rest := by
  induction gap with
  | nil => rfl
  | cons c gap ih =>
    obtain ⟨hblank, hgap⟩ := List.forall_mem_cons.1 hgap
    have hstart : ¬ isNameStart c = true := by
      intro hstart
      have hname := Text.isNameChar_of_isBlank hblank
      rw [Text.isNameChar_of_isNameStart hstart] at hname
      cases hname
    rw [List.cons_append, comparedNames, if_neg hstart]
    exact ih hgap

/-- The property of a comparison is found at its start. -/
theorem mem_comparedNames_append {comparison : Comparison} (h : Comparison.read? cs = some comparison)
    (back : List Char) : comparison.property ∈ comparedNames (cs ++ back) := by
  simp only [Comparison.read?, Option.bind_eq_bind, Option.bind_eq_some_iff] at h
  obtain ⟨⟨name, behind⟩, hname, ⟨relation, _⟩, hrelation, ⟨_, _⟩, -, _, -, h⟩ := h
  have hproperty : comparison.property = String.ofList name := by
    split at h <;> split at h <;> cases h <;> rfl
  rw [hproperty]
  obtain ⟨hcs, ⟨c, more, rfl, hstart, hmore⟩, hstops⟩ := Text.name?_eq_some_iff.1 hname
  have hsome : (Relation.read? (Text.skipBlanks behind)).isSome = true := by rw [hrelation]; rfl
  have hblanks : Text.skipBlanks (behind ++ back) = Text.skipBlanks behind ++ back := by
    rw [Text.skipBlanks, List.dropWhile_append, if_neg]
    · rfl
    · intro hempty
      rw [Text.skipBlanks, List.isEmpty_iff.1 hempty] at hsome
      cases hsome
  have hbehind : Stops isNameChar (behind ++ back) := by
    cases behind with
    | nil => cases hsome
    | cons d behind => exact fun e he => hstops e he
  obtain ⟨htake, hdrop⟩ := Text.takeWhile_append_of_stops hmore hbehind
  have hgap : IsBlanks (cs.takeWhile Text.isBlank) := fun d hd => List.mem_takeWhile_imp hd
  rw [← Text.takeWhile_append_skipBlanks cs, hcs, List.append_assoc,
    comparedNames_append_of_isBlanks hgap, List.cons_append, List.cons_append, comparedNames,
    if_pos hstart, List.append_assoc, htake, hdrop]
  dsimp only
  split
  · exact List.mem_cons_self
  · rename_i hnone
    rw [hblanks] at hnone
    have hcontra := Relation.isSome_read?_append hsome back
    rw [hnone] at hcontra
    cases hcontra

/-- The pieces between the `&&` of a text: the first one stands at its start, and each of the others
behind an `&`. -/
theorem conjuncts_eq_cons (cs : List Char) : ∃ first others, conjuncts cs = first :: others ∧
    (∃ rest, cs = first ++ rest) ∧
    ∀ piece ∈ others, ∃ front rest, cs = front ++ '&' :: (piece ++ rest) := by
  fun_induction conjuncts cs with
  | case1 => exact ⟨[], [], rfl, ⟨[], rfl⟩, nofun⟩
  | case2 rest ih =>
    obtain ⟨first, others, hconjuncts, ⟨tail, hfirst⟩, hothers⟩ := ih
    refine ⟨[], conjuncts rest, rfl, ⟨_, rfl⟩, fun piece hpiece => ?_⟩
    rw [hconjuncts] at hpiece
    rcases List.mem_cons.1 hpiece with rfl | hpiece
    · exact ⟨['&'], tail, by rw [hfirst]; rfl⟩
    · obtain ⟨front, tail, hrest⟩ := hothers piece hpiece
      exact ⟨'&' :: '&' :: front, tail, by rw [hrest]; rfl⟩
  | case3 c rest _ hnil ih =>
    obtain ⟨first, others, hconjuncts, -⟩ := ih
    rw [hnil] at hconjuncts
    cases hconjuncts
  | case4 c rest _ piece pieces heq ih =>
    obtain ⟨first, others, hconjuncts, ⟨tail, hfirst⟩, hothers⟩ := ih
    rw [heq] at hconjuncts
    cases hconjuncts
    refine ⟨c :: piece, pieces, rfl, ⟨tail, by rw [hfirst]; rfl⟩, fun other hother => ?_⟩
    obtain ⟨front, tail, hrest⟩ := hothers other hother
    exact ⟨c :: front, tail, by rw [hrest]; rfl⟩

/-- **Each comparison between the `&&` of a condition is of one of its names.** -/
theorem mem_comparedNames_of_read? {condition piece : List Char} {comparison : Comparison}
    (hpiece : piece ∈ conjuncts condition) (h : Comparison.read? piece = some comparison) :
    comparison.property ∈ comparedNames condition := by
  obtain ⟨first, others, hconjuncts, ⟨rest, hfirst⟩, hothers⟩ := conjuncts_eq_cons condition
  rw [hconjuncts] at hpiece
  rcases List.mem_cons.1 hpiece with rfl | hpiece
  · rw [hfirst]
    exact mem_comparedNames_append h rest
  · obtain ⟨front, rest, hcondition⟩ := hothers piece hpiece
    rw [hcondition]
    exact comparedNames_subset_append _ _ (mem_comparedNames_append h rest)

/-- **The outcome of a condition** depends on the values of its names only. -/
theorem decide_congr {condition : String} {values values' : Table String Binary32}
    (hagree : ∀ name ∈ comparedNames condition.toList, values.get? name = values'.get? name) :
    decide condition values = decide condition values' := by
  have houtcomes : (conjuncts condition.toList).map (conjunctValue values)
      = (conjuncts condition.toList).map (conjunctValue values') := by
    apply List.map_congr_left
    intro piece hpiece
    simp only [conjunctValue]
    cases hread : Comparison.read? piece with
    | none => rfl
    | some comparison =>
      simp only [Option.bind_eq_bind, Option.bind_some]
      rw [hagree _ (mem_comparedNames_of_read? hpiece hread)]
  rw [decide, decide, houtcomes]

end ShaderMerge.Region

namespace ShaderMerge.LogicalLine

/-! ## The names of a file -/

/-- A joined line without its comments, and the mode at its end.  Only a line that starts in code can
mark a region by a comment. -/
def bare (inComment : Bool) (line : List Char) : List Char × Mode :=
  if inComment then stripComments .comment line
  else stripComments .code (promoteRegion (Text.skipBlanks line))

/-- The texts of joined lines without their comments. -/
def bareTexts (inComment : Bool) : List (List Char) → List (List Char)
  | [] => []
  | line :: rest =>
    Text.trimmed (bare inComment line).1 :: bareTexts ((bare inComment line).2 = .comment) rest

/-- The conditions of the regions that the raw lines of a file open, where a line starts with
`#ifex`. -/
def regionConditions (raw : List String) : List (List Char) :=
  (bareTexts false (joinContinued (raw.map String.toList))).filterMap (Text.after? "#ifex")

theorem Progress.line?_eq_some {p p' : Progress} {line : List Char} (h : p.line? line = some p') :
    p'.inComment = decide ((bare p.inComment line).2 = .comment) ∧
      p'.regionNames = p.regionNames ++ ((Text.after? "#ifex"
        (Text.trimmed (bare p.inComment line).1)).toList.flatMap Region.comparedNames) := by
  rw [Progress.line?, ← bare] at h
  generalize bare p.inComment line = left at h ⊢
  obtain ⟨left, mode⟩ := left
  dsimp only at h ⊢
  split at h
  · cases h
  · split at h
    · rename_i hempty
      cases h
      rw [hempty]
      exact ⟨rfl, (List.append_nil _).symm⟩
    · rename_i rest hdirective
      cases h
      refine ⟨rfl, ?_⟩
      cases Text.after? "#ifex" (Text.trimmed left) with
      | none => rfl
      | some condition => simp
    · rename_i hempty hdirective
      cases h
      refine ⟨rfl, ?_⟩
      -- No other text starts with the sign.
      have hnone : Text.after? "#ifex" (Text.trimmed left) = none := by
        rw [Option.eq_none_iff_forall_ne_some]
        intro condition hcondition
        exact hdirective _ (Text.after?_eq_some_iff.1 hcondition)
      rw [hnone]
      exact (List.append_nil _).symm

theorem regionNames_normalizeFrom {file : String} {p : Progress} {number : Nat}
    {lines : List (List Char)} {n : Normalized} (h : normalizeFrom file p number lines = .ok n) :
    n.regionNames = p.regionNames
      ++ ((bareTexts p.inComment lines).filterMap (Text.after? "#ifex")).flatMap
        Region.comparedNames := by
  induction lines generalizing p number with
  | nil =>
    rw [normalizeFrom] at h
    split at h
    · cases h
    · cases h
      exact (List.append_nil _).symm
  | cons line rest ih =>
    rw [normalizeFrom] at h
    split at h
    · cases h
    · rename_i p' hline
      obtain ⟨hcomment, hnames⟩ := Progress.line?_eq_some hline
      rw [ih h, hnames, hcomment, bareTexts, List.filterMap_cons, List.append_assoc]
      congr 1
      split
      · rename_i hnone
        rw [hnone]
        rfl
      · rename_i condition hcondition
        rw [hcondition, List.flatMap_cons]
        simp

/-- **The names noted for a file** are those of the conditions on its lines. -/
theorem regionNames_ofRaw {file : String} {raw : List String} {n : Normalized}
    (h : ofRaw file raw = .ok n) :
    n.regionNames = (regionConditions raw).flatMap Region.comparedNames :=
  regionNames_normalizeFrom h

end ShaderMerge.LogicalLine
