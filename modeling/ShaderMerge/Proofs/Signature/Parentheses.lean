import ShaderMerge.Signature.Brackets

/-!
# Parentheses that close

`closing?` finds the parenthesis that closes one opened before the text: the text in front of it opens
and closes its parentheses in pairs (`closing?_eq_some_iff`).  So the parenthesis is found in a text as
it is found in any longer one.
-/

namespace ShaderMerge.Signature

variable {depth : Nat} {cs rest inner after : List Char} {c : Char}

/-- What a character adds to the number of open parentheses. -/
def parenStep (c : Char) : Int := if c = '(' then 1 else if c = ')' then -1 else 0

@[simp]
theorem parenBalance_nil : parenBalance [] = 0 := rfl

@[simp]
theorem parenBalance_append (cs rest : List Char) :
    parenBalance (cs ++ rest) = parenBalance cs + parenBalance rest := by
  have hfold : ∀ (cs : List Char) (n : Int),
      cs.foldl (fun n c => if c = '(' then n + 1 else if c = ')' then n - 1 else n) n
        = n + parenBalance cs := by
    intro cs
    induction cs with
    | nil => exact fun n => (Int.add_zero n).symm
    | cons c cs ih =>
      intro n
      rw [parenBalance, List.foldl_cons, List.foldl_cons, ih, ih]
      split
      · omega
      · split <;> omega
  rw [parenBalance, List.foldl_append, hfold]
  rfl

@[simp]
theorem parenBalance_cons (c : Char) (cs : List Char) :
    parenBalance (c :: cs) = parenStep c + parenBalance cs := by
  have hstep : parenBalance [c] = parenStep c := by
    rw [parenBalance, parenStep, List.foldl_cons, List.foldl_nil]
    split
    · rfl
    · split <;> rfl
  rw [← hstep, ← parenBalance_append]
  rfl

/-- A text without parentheses opens and closes none. -/
theorem parenBalance_of_notMem (hopen : '(' ∉ cs) (hclose : ')' ∉ cs) : parenBalance cs = 0 := by
  induction cs with
  | nil => rfl
  | cons c cs ih =>
    rw [List.mem_cons, not_or] at hopen hclose
    rw [parenBalance_cons, ih hopen.2 hclose.2, parenStep, if_neg (Ne.symm hopen.1),
      if_neg (Ne.symm hclose.1)]
    rfl

/-- Whether a text closes `depth` parentheses and those that it opens, each behind where it is
opened. -/
structure Closes (depth : Nat) (cs : List Char) : Prop where
  total : depth + parenBalance cs = 0
  front : ∀ front, front <+: cs → 0 ≤ depth + parenBalance front

theorem closes_nil : Closes depth [] ↔ depth = 0 := by
  constructor
  · intro h
    simpa using h.total
  · rintro rfl
    refine ⟨rfl, fun front hfront => ?_⟩
    rw [List.prefix_nil.1 hfront]
    exact Int.le_refl 0

theorem closes_cons :
    Closes depth (c :: cs) ↔ ∃ d : Nat, (d : Int) = depth + parenStep c ∧ Closes d cs := by
  constructor
  · intro h
    have hfirst := h.front [c] ⟨cs, rfl⟩
    have htotal := h.total
    rw [parenBalance_cons] at hfirst htotal
    simp only [parenBalance_nil, Int.add_zero] at hfirst
    refine ⟨(depth + parenStep c).toNat, Int.toNat_of_nonneg hfirst, ?_, fun front hfront => ?_⟩
    · rw [Int.toNat_of_nonneg hfirst]
      omega
    · have hlonger := h.front (c :: front) (List.cons_prefix_cons.2 ⟨rfl, hfront⟩)
      rw [parenBalance_cons] at hlonger
      rw [Int.toNat_of_nonneg hfirst]
      omega
  · rintro ⟨d, hd, h⟩
    refine ⟨?_, fun front hfront => ?_⟩
    · have htotal := h.total
      rw [parenBalance_cons]
      omega
    · cases front with
      | nil => simp
      | cons x front =>
        obtain ⟨rfl, hfront'⟩ := List.cons_prefix_cons.1 hfront
        have hshorter := h.front front hfront'
        rw [parenBalance_cons]
        omega

theorem closes_of_notMem (hopen : '(' ∉ cs) (hclose : ')' ∉ cs) : Closes 0 cs := by
  have hbalance : ∀ front, front <+: cs → parenBalance front = 0 := fun front hfront =>
    parenBalance_of_notMem (fun hmem => hopen (hfront.subset hmem)) fun hmem =>
      hclose (hfront.subset hmem)
  refine ⟨?_, fun front hfront => ?_⟩
  · rw [hbalance cs (List.prefix_refl cs)]
    rfl
  · rw [hbalance front hfront]
    exact Int.le_refl 0

/-- Behind a text that closes what it opens, as many are open as in front of it. -/
theorem Closes.append_iff {front : List Char} (h : Closes 0 front) (rest : List Char) :
    Closes depth (front ++ rest) ↔ Closes depth rest := by
  have htotal := h.total
  constructor
  · intro hall
    refine ⟨?_, fun pre hpre => ?_⟩
    · have := hall.total
      rw [parenBalance_append] at this
      omega
    · have := hall.front (front ++ pre) ((List.prefix_append_right_inj front).2 hpre)
      rw [parenBalance_append] at this
      omega
  · intro hrest
    refine ⟨?_, fun pre hpre => ?_⟩
    · have := hrest.total
      rw [parenBalance_append]
      omega
    · obtain ⟨tail, heq⟩ := hpre
      rcases List.append_eq_append_iff.1 heq with ⟨more, hfront, -⟩ | ⟨more, rfl, hrest'⟩
      · have := h.front pre ⟨more, hfront.symm⟩
        omega
      · have := hrest.front more ⟨tail, hrest'.symm⟩
        rw [parenBalance_append]
        omega

/-- What stands behind a text counts by what it closes alone. -/
theorem closes_append_congr {back back' : List Char} (h : ∀ d, Closes d back ↔ Closes d back')
    (front : List Char) : Closes depth (front ++ back) ↔ Closes depth (front ++ back') := by
  induction front generalizing depth with
  | nil => exact h depth
  | cons c front ih => simp only [List.cons_append, closes_cons, ih]

/-- **What stands in front of the parenthesis that closes.** -/
theorem closing?_eq_some_iff :
    closing? depth cs = some (inner, after) ↔ cs = inner ++ ')' :: after ∧ Closes depth inner := by
  constructor
  · intro h
    refine ⟨(append_of_closing? h).symm, ?_⟩
    induction cs generalizing depth inner with
    | nil => cases h
    | cons c cs ih =>
      simp only [closing?] at h
      split at h
      · rename_i hc
        cases depth with
        | zero =>
          cases h
          exact closes_nil.2 rfl
        | succ depth =>
          obtain ⟨⟨inner', after'⟩, hrest, heq⟩ := Option.map_eq_some_iff.1 h
          cases heq
          refine closes_cons.2 ⟨depth, ?_, ih hrest⟩
          have hstep : parenStep c = -1 := by rw [hc]; rfl
          rw [hstep]
          omega
      · rename_i hc
        obtain ⟨⟨inner', after'⟩, hrest, heq⟩ := Option.map_eq_some_iff.1 h
        cases heq
        refine closes_cons.2 ⟨_, ?_, ih hrest⟩
        rw [parenStep, if_neg hc]
        split <;> simp
  · rintro ⟨rfl, h⟩
    induction inner generalizing depth with
    | nil =>
      obtain rfl := closes_nil.1 h
      rfl
    | cons c inner ih =>
      obtain ⟨d, hd, h⟩ := closes_cons.1 h
      have hrest := ih h
      rw [parenStep] at hd
      simp only [List.cons_append, closing?]
      split
      · rename_i hc
        subst hc
        obtain rfl : depth = d + 1 := by simp at hd; omega
        simp [hrest]
      · rename_i hc
        rw [if_neg hc] at hd
        have hdepth : (if c = '(' then depth + 1 else depth) = d := by
          split at hd <;> rename_i hopen
          · rw [if_pos hopen]; omega
          · rw [if_neg hopen]; omega
        rw [hdepth, hrest]
        rfl

/-- Where no parenthesis closes, the text behind is searched with those open that the text leaves open. -/
theorem closing?_append_of_none (h : closing? depth cs = none) (rest : List Char) :
    closing? depth (cs ++ rest) = (closing? (depth + parenBalance cs).toNat rest).map
      fun (inner, after) => (cs ++ inner, after) := by
  induction cs generalizing depth with
  | nil =>
    rw [parenBalance_nil, Int.add_zero, Int.toNat_natCast]
    exact Option.map_id'.symm
  | cons c cs ih =>
    simp only [closing?] at h
    simp only [List.cons_append, closing?, parenBalance_cons, parenStep]
    by_cases hclose : c = ')'
    · rw [if_pos hclose] at h
      rw [if_pos hclose]
      cases depth with
      | zero => cases h
      | succ depth =>
        have hdepth : ((depth + 1 : Nat) + ((if c = '(' then 1 else if c = ')' then -1 else 0)
            + parenBalance cs) : Int) = depth + parenBalance cs := by
          rw [if_pos hclose, if_neg (by rw [hclose]; decide)]
          omega
        dsimp only
        rw [ih (Option.map_eq_none_iff.1 h), Option.map_map, hdepth]
        rfl
    · rw [if_neg hclose] at h
      have hdepth : (depth + ((if c = '(' then 1 else if c = ')' then -1 else 0)
          + parenBalance cs) : Int) = (if c = '(' then depth + 1 else depth : Nat) + parenBalance cs := by
        rw [if_neg hclose]
        split <;> omega
      rw [if_neg hclose, ih (Option.map_eq_none_iff.1 h), Option.map_map, hdepth]
      rfl

theorem closing?_eq_none_iff : closing? depth cs = none ↔
    ∀ inner after, cs = inner ++ ')' :: after → ¬Closes depth inner := by
  constructor
  · intro h inner after heq hcloses
    rw [closing?_eq_some_iff.2 ⟨heq, hcloses⟩] at h
    cases h
  · intro h
    cases hfound : closing? depth cs with
    | none => rfl
    | some found =>
      obtain ⟨heq, hcloses⟩ := closing?_eq_some_iff.1 hfound
      exact absurd hcloses (h _ _ heq)

end ShaderMerge.Signature
