import Mathlib.Algebra.BigOperators.Group.List.Basic
import Mathlib.Algebra.Ring.Int.Defs
import ShaderMerge.Signature.Brackets

/-!
# Cutting a text outside of brackets

A text is cut at the separators in front of which as many brackets are closed as are opened.  So a
text that is put behind another one is cut as if its brackets stood behind those of the other
(`exists_splitTopFrom_append`), and a text in which nothing separates stays whole
(`splitTopFrom_append`, `cutTopFrom_append`).
-/

namespace ShaderMerge.Signature

/-- How many more brackets a text opens than it closes. -/
def bracketBalance (cs : List Char) : Int := (cs.map bracketStep).sum

@[simp]
theorem bracketBalance_nil : bracketBalance [] = 0 := rfl

@[simp]
theorem bracketBalance_cons (c : Char) (cs : List Char) :
    bracketBalance (c :: cs) = bracketStep c + bracketBalance cs := List.sum_cons

@[simp]
theorem bracketBalance_append (cs rest : List Char) :
    bracketBalance (cs ++ rest) = bracketBalance cs + bracketBalance rest := by
  rw [bracketBalance, List.map_append, List.sum_append]
  rfl

theorem bracketBalance_eq_zero {cs : List Char} (h : ∀ c ∈ cs, bracketStep c = 0) :
    bracketBalance cs = 0 := by
  refine List.sum_eq_zero fun step hstep => ?_
  obtain ⟨c, hc, rfl⟩ := List.mem_map.1 hstep
  exact h c hc

/-- The number of open brackets behind a text, if nothing in it separates. -/
def openBehind? (separator : Char) (depth : Int) : List Char → Option Int
  | [] => some depth
  | c :: rest =>
    if separatesAt separator c depth then none
    else openBehind? separator (depth + bracketStep c) rest

variable {separator : Char} {depth : Int}

theorem splitTopFrom_ne_nil (separator : Char) (depth : Int) (cs : List Char) :
    splitTopFrom separator depth cs ≠ [] := by
  cases cs with
  | nil => exact List.cons_ne_nil _ _
  | cons c rest =>
    rw [splitTopFrom]
    split
    · exact List.cons_ne_nil _ _
    · split <;> exact List.cons_ne_nil _ _

/-- A text in which nothing separates becomes the start of a piece. -/
theorem splitTopFrom_append {behind : Int} {cs : List Char}
    (h : openBehind? separator depth cs = some behind) (rest : List Char) :
    splitTopFrom separator depth (cs ++ rest)
      = (splitTopFrom separator behind rest).modifyHead (cs ++ ·) := by
  induction cs generalizing depth with
  | nil =>
    cases h
    obtain ⟨piece, pieces, hpieces⟩ :=
      List.exists_cons_of_ne_nil (splitTopFrom_ne_nil separator behind rest)
    rw [List.nil_append, hpieces]
    rfl
  | cons c cs ih =>
    rw [openBehind?] at h
    split at h
    · cases h
    · rename_i hseparates
      rw [List.cons_append, splitTopFrom, if_neg hseparates, ih h]
      obtain ⟨piece, pieces, hpieces⟩ :=
        List.exists_cons_of_ne_nil (splitTopFrom_ne_nil separator behind rest)
      rw [hpieces]
      rfl

theorem openBehind?_append (separator : Char) (depth : Int) (cs ds : List Char) :
    openBehind? separator depth (cs ++ ds)
      = (openBehind? separator depth cs).bind fun behind => openBehind? separator behind ds := by
  induction cs generalizing depth with
  | nil => rfl
  | cons c cs ih =>
    rw [List.cons_append, openBehind?, openBehind?]
    split
    · rfl
    · exact ih _

theorem openBehind?_of_notMem {cs : List Char} (h : separator ∉ cs) :
    openBehind? separator depth cs = some (depth + bracketBalance cs) := by
  induction cs generalizing depth with
  | nil => rw [bracketBalance_nil, Int.add_zero, openBehind?]
  | cons c cs ih =>
    rw [List.mem_cons, not_or] at h
    have hno : separatesAt separator c depth = false := by simp [separatesAt, Ne.symm h.1]
    rw [openBehind?, hno, bracketBalance_cons, ← Int.add_assoc]
    exact ih h.2

theorem eq_of_openBehind? {behind : Int} {cs : List Char}
    (h : openBehind? separator depth cs = some behind) : behind = depth + bracketBalance cs := by
  induction cs generalizing depth with
  | nil =>
    cases h
    rw [bracketBalance_nil, Int.add_zero]
  | cons c cs ih =>
    rw [openBehind?] at h
    split at h
    · cases h
    · rw [ih h, bracketBalance_cons, Int.add_assoc]

theorem bracketBalance_of_openBehind? {cs : List Char}
    (h : openBehind? separator depth cs = some depth) : bracketBalance cs = 0 := by
  have heq := eq_of_openBehind? h
  omega

/-- Texts of a kind of characters without brackets and separators leave as many brackets open as
they find. -/
theorem openBehind?_of_forall {cs : List Char} {p : Char → Bool} (h : ∀ c ∈ cs, p c = true)
    (hbrackets : ['(', ')', '[', ']', '<', '>'].any p = false) (hseparator : p separator = false) :
    openBehind? separator depth cs = some depth := by
  have hother : ∀ c ∈ cs, ∀ d, p d = false → c ≠ d := by
    rintro c hc d hd rfl
    rw [h c hc] at hd
    cases hd
  have hbalance : bracketBalance cs = 0 := by
    refine bracketBalance_eq_zero fun c hc => ?_
    simp only [List.any_cons, List.any_nil, Bool.or_false, Bool.or_eq_false_iff] at hbrackets
    obtain ⟨h₁, h₂, h₃, h₄, h₅, h₆⟩ := hbrackets
    simp [bracketStep, hother c hc _ h₁, hother c hc _ h₂, hother c hc _ h₃, hother c hc _ h₄,
      hother c hc _ h₅, hother c hc _ h₆]
  rw [openBehind?_of_notMem fun hmem => hother separator hmem separator hseparator rfl, hbalance,
    Int.add_zero]

/-- Texts in which nothing separates are the pieces of what they make with commas between them. -/
theorem splitTop_intercalate {gap first : List Char} {others : List (List Char)}
    (hgap : openBehind? ',' 0 gap = some 0)
    (h : ∀ piece ∈ first :: others, openBehind? ',' 0 piece = some 0) :
    splitTop ',' (List.intercalate (',' :: gap) (first :: others))
      = first :: others.map (gap ++ ·) := by
  rw [splitTop]
  induction others generalizing first with
  | nil =>
    rw [List.intercalate_singleton, ← List.append_nil first,
      splitTopFrom_append (h first List.mem_cons_self)]
    rfl
  | cons next others ih =>
    obtain ⟨hfirst, hothers⟩ := List.forall_mem_cons.1 h
    rw [List.intercalate_cons_cons, List.append_assoc, splitTopFrom_append hfirst,
      List.cons_append, splitTopFrom, if_pos (by decide), splitTopFrom_append hgap, ih hothers]
    simp

/-! ## A text behind another one -/

/-- The pieces of a text in front are the first ones, and the last of them goes on behind it. -/
theorem exists_splitTopFrom_append (separator : Char) (depth : Int) (front : List Char) :
    ∃ pieces last, splitTopFrom separator depth front = pieces ++ [last] ∧
      ∀ rest, splitTopFrom separator depth (front ++ rest) = pieces ++
        (splitTopFrom separator (depth + bracketBalance front) rest).modifyHead (last ++ ·) := by
  induction front generalizing depth with
  | nil =>
    refine ⟨[], [], rfl, fun rest => ?_⟩
    rw [bracketBalance_nil, Int.add_zero]
    exact splitTopFrom_append rfl rest
  | cons c front ih =>
    by_cases hseparates : separatesAt separator c depth = true
    · obtain ⟨pieces, last, hfront, hrest⟩ := ih depth
      have hstep : bracketStep c = 0 := by
        simp only [separatesAt, Bool.and_eq_true, beq_iff_eq] at hseparates
        exact hseparates.1.2
      refine ⟨[] :: pieces, last, by rw [splitTopFrom, if_pos hseparates, hfront]; rfl, fun rest => ?_⟩
      rw [List.cons_append, splitTopFrom, if_pos hseparates, hrest, bracketBalance_cons, hstep,
        Int.zero_add]
      rfl
    · obtain ⟨pieces, last, hfront, hrest⟩ := ih (depth + bracketStep c)
      simp only [List.cons_append, splitTopFrom, if_neg hseparates, hfront, hrest, bracketBalance_cons,
        ← Int.add_assoc]
      cases pieces with
      | cons piece pieces => exact ⟨(c :: piece) :: pieces, last, rfl, fun rest => rfl⟩
      | nil =>
        refine ⟨[], c :: last, rfl, fun rest => ?_⟩
        obtain ⟨piece, pieces, hpieces⟩ := List.exists_cons_of_ne_nil (splitTopFrom_ne_nil separator
          (depth + bracketStep c + bracketBalance front) rest)
        rw [hpieces]
        rfl

/-- The last piece of a text leaves as many brackets open as the text, for none are open where it
is cut. -/
theorem bracketBalance_last {cs last : List Char} {pieces : List (List Char)}
    (h : splitTopFrom separator depth cs = pieces ++ [last]) :
    (pieces = [] → last = cs) ∧ (pieces ≠ [] → bracketBalance last = depth + bracketBalance cs) := by
  induction cs generalizing depth pieces last with
  | nil =>
    cases pieces with
    | nil => exact ⟨fun _ => (List.cons.inj h).1.symm, fun hne => absurd rfl hne⟩
    | cons piece pieces => simp [splitTopFrom] at h
  | cons c cs ih =>
    rw [splitTopFrom] at h
    by_cases hseparates : separatesAt separator c depth = true
    · rw [if_pos hseparates] at h
      simp only [separatesAt, Bool.and_eq_true, beq_iff_eq] at hseparates
      obtain ⟨⟨-, hstep⟩, hdepth⟩ := hseparates
      cases pieces with
      | nil => exact absurd (List.cons.inj h).2 (splitTopFrom_ne_nil _ _ _)
      | cons piece pieces =>
        obtain ⟨hwhole, hlast⟩ := ih (List.cons.inj h).2
        refine ⟨fun hnil => absurd hnil (List.cons_ne_nil _ _), fun _ => ?_⟩
        rw [bracketBalance_cons, hstep, hdepth]
        by_cases hnil : pieces = []
        · rw [hwhole hnil]
          omega
        · rw [hlast hnil, hdepth]
          omega
    · rw [if_neg hseparates] at h
      obtain ⟨piece, others, hpieces⟩ := List.exists_cons_of_ne_nil
        (splitTopFrom_ne_nil separator (depth + bracketStep c) cs)
      rw [hpieces] at h
      cases pieces with
      | nil =>
        obtain ⟨rfl, rfl⟩ := List.cons.inj h
        have hinner : splitTopFrom separator (depth + bracketStep c) cs = [] ++ [piece] := hpieces
        have hwhole : piece = cs := (ih hinner).1 rfl
        exact ⟨fun _ => congrArg (c :: ·) hwhole, fun hne => absurd rfl hne⟩
      | cons first pieces =>
        obtain ⟨-, rfl⟩ := List.cons.inj h
        refine ⟨fun hnil => absurd hnil (List.cons_ne_nil _ _), fun _ => ?_⟩
        have hinner : splitTopFrom separator (depth + bracketStep c) cs
            = (piece :: pieces) ++ [last] := hpieces
        rw [(ih hinner).2 (List.cons_ne_nil _ _), bracketBalance_cons, Int.add_assoc]

/-- Behind a text that closes its brackets a separator separates. -/
theorem splitTop_append_separator {front : List Char} (hseparator : bracketStep separator = 0)
    (h : bracketBalance front = 0) (rest : List Char) :
    splitTop separator (front ++ separator :: rest)
      = splitTop separator front ++ splitTop separator rest := by
  obtain ⟨pieces, last, hfront, hrest⟩ := exists_splitTopFrom_append separator 0 front
  have hseparates : separatesAt separator separator 0 = true := by simp [separatesAt, hseparator]
  rw [splitTop, hrest, h, Int.zero_add, splitTopFrom, if_pos hseparates, splitTop, hfront]
  simp [splitTop]

/-- In a text of which nothing separates, a separator is looked for behind it. -/
theorem cutTopFrom_append {behind : Int} {front : List Char}
    (h : openBehind? separator depth front = some behind) (rest : List Char) :
    cutTopFrom separator depth (front ++ rest)
      = (cutTopFrom separator behind rest).map fun (before, after) => (front ++ before, after) := by
  induction front generalizing depth with
  | nil =>
    cases h
    exact Option.map_id'.symm
  | cons c front ih =>
    rw [openBehind?] at h
    split at h
    · cases h
    · rename_i hseparates
      rw [List.cons_append, cutTopFrom, if_neg hseparates, ih h, Option.map_map]
      rfl

end ShaderMerge.Signature
