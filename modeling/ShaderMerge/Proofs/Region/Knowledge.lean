import ShaderMerge.Proofs.Table
import ShaderMerge.Region.Comparison

/-!
# Conditions and what is known of values

A condition that is decided stays decided, and alike, when more values are known
(`decide_of_extends`).  The connective is the strong conjunction: a comparison that fails decides
it whatever is unknown beside it, so both outcomes are kept.
-/

namespace ShaderMerge.Region

variable {known more : Table String Binary32}

theorem conjunctValue_of_extends (h : known.Extends more) {cs : List Char} {value : Bool}
    (hvalue : conjunctValue known cs = some value) : conjunctValue more cs = some value := by
  simp only [conjunctValue, Option.bind_eq_bind, Option.bind_eq_some_iff] at hvalue ⊢
  obtain ⟨comparison, hread, x, hget, heq⟩ := hvalue
  exact ⟨comparison, hread, x, h _ _ hget, heq⟩

/-- A comparison that fails goes on failing. -/
theorem contains_false_of_extends (h : known.Extends more) {conjuncts : List (List Char)}
    (hfails : (conjuncts.map (conjunctValue known)).contains (some false) = true) :
    (conjuncts.map (conjunctValue more)).contains (some false) = true := by
  rw [List.contains_iff_mem, List.mem_map] at hfails ⊢
  obtain ⟨cs, hmem, hvalue⟩ := hfails
  exact ⟨cs, hmem, conjunctValue_of_extends h hvalue⟩

/-- Where all comparisons are decided, more knowledge changes none. -/
theorem map_conjunctValue_of_extends (h : known.Extends more) {conjuncts : List (List Char)}
    (hall : (conjuncts.map (conjunctValue known)).contains none = false) :
    conjuncts.map (conjunctValue more) = conjuncts.map (conjunctValue known) := by
  rw [List.map_inj_left]
  intro cs hmem
  cases hvalue : conjunctValue known cs with
  | none =>
    have hnone : (conjuncts.map (conjunctValue known)).contains none = true := by
      rw [List.contains_iff_mem, List.mem_map]
      exact ⟨cs, hmem, hvalue⟩
    rw [hall] at hnone
    cases hnone
  | some value => exact conjunctValue_of_extends h hvalue

/-- **What is decided stays decided when more is known.** -/
theorem decide_of_extends (h : known.Extends more) {condition : String}
    (hdecided : Region.decide condition known ≠ .undecided) :
    Region.decide condition more = Region.decide condition known := by
  simp only [Region.decide] at hdecided ⊢
  split
  · rfl
  · rename_i hor
    rw [if_neg hor] at hdecided
    cases hfails : ((conjuncts condition.toList).map (conjunctValue known)).contains
        (some false) with
    | true => rw [contains_false_of_extends h hfails, if_pos rfl, if_pos rfl]
    | false =>
      rw [hfails, if_neg Bool.false_ne_true] at hdecided
      have hall : ((conjuncts condition.toList).map (conjunctValue known)).contains none
          = false := by
        rw [Bool.eq_false_iff]
        intro hnone
        rw [if_pos hnone] at hdecided
        exact hdecided rfl
      rw [map_conjunctValue_of_extends h hall, hfails]

end ShaderMerge.Region
