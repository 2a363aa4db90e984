import ShaderMerge.Proofs.Signature.Parentheses
import ShaderMerge.Proofs.Signature.Splitting

/-!
# Texts with balanced brackets

In a balanced text every bracket has its partner of the same kind, one pair within another or behind
it (`IsBalanced`).  The readers of a signature count brackets without their kinds.  A balanced text
comes out of both counts as it went in: it separates at no place where separators are left out
(`IsBalanced.openBehind?`), and it closes the parentheses that it opens (`IsBalanced.closes`).
-/

namespace ShaderMerge.Signature

/-- The brackets that open, each with the one that closes it. -/
def bracketPairs : List (Char × Char) := [('(', ')'), ('[', ']'), ('<', '>')]

/-- Whether the brackets of a text are balanced, and outside of them it has none of some separators. -/
inductive IsBalanced : List Char → List Char → Prop where
  | nil {separators : List Char} : IsBalanced separators []
  | cons {separators rest : List Char} {c : Char} (hstep : bracketStep c = 0) (hc : c ∉ separators)
    (hrest : IsBalanced separators rest) : IsBalanced separators (c :: rest)
  | group {separators inner rest : List Char} {opening closing : Char}
    (hpair : (opening, closing) ∈ bracketPairs) (hinner : IsBalanced [] inner)
    (hrest : IsBalanced separators rest) : IsBalanced separators (opening :: (inner ++ closing :: rest))

namespace IsBalanced

variable {separators cs rest : List Char} {separator opening closing : Char} {depth : Int}

theorem append (h : IsBalanced separators cs) (hrest : IsBalanced separators rest) :
    IsBalanced separators (cs ++ rest) := by
  induction h with
  | nil => exact hrest
  | cons hstep hc _ ih => exact .cons hstep hc (ih hrest)
  | group hpair hinner _ _ ih =>
    rw [List.cons_append, List.append_assoc, List.cons_append]
    exact .group hpair hinner (ih hrest)

/-- Fewer separators are left out. -/
theorem mono {fewer : List Char} (h : IsBalanced separators cs) (hsub : ∀ c ∈ fewer, c ∈ separators) :
    IsBalanced fewer cs := by
  induction h with
  | nil => exact .nil
  | cons hstep hc _ ih => exact .cons hstep (fun hmem => hc (hsub _ hmem)) (ih hsub)
  | group hpair hinner _ _ ih => exact .group hpair hinner (ih hsub)

theorem of_forall (h : ∀ c ∈ cs, bracketStep c = 0 ∧ c ∉ separators) : IsBalanced separators cs := by
  induction cs with
  | nil => exact .nil
  | cons c cs ih =>
    obtain ⟨⟨hstep, hc⟩, hcs⟩ := List.forall_mem_cons.1 h
    exact .cons hstep hc (ih hcs)

theorem group_singleton (hpair : (opening, closing) ∈ bracketPairs) (h : IsBalanced [] cs) :
    IsBalanced separators (opening :: (cs ++ [closing])) := .group hpair h .nil

theorem bracketStep_of_pair (hpair : (opening, closing) ∈ bracketPairs) :
    bracketStep opening = 1 ∧ bracketStep closing = -1 := by
  have hall : ∀ pair ∈ bracketPairs, bracketStep pair.1 = 1 ∧ bracketStep pair.2 = -1 := by decide
  exact hall _ hpair

/-- **Behind a balanced text as many brackets are open as in front of it**, and nothing in it
separates: inside brackets nothing does, and outside the separators are left out. -/
theorem openBehind? (h : IsBalanced separators cs) (hdepth : 0 ≤ depth)
    (hseparator : depth = 0 → separator ∈ separators) :
    Signature.openBehind? separator depth cs = some depth := by
  induction h generalizing depth with
  | nil => rfl
  | @cons separators rest c hstep hc _ ih =>
    have hno : separatesAt separator c depth = false := by
      rw [separatesAt, Bool.and_eq_false_iff, Bool.and_eq_false_iff, beq_eq_false_iff_ne,
        beq_eq_false_iff_ne, beq_eq_false_iff_ne]
      by_cases hzero : depth = 0
      · exact .inl (.inl fun heq => hc (heq ▸ hseparator hzero))
      · exact .inr hzero
    rw [Signature.openBehind?, hno, hstep, Int.add_zero]
    exact ih hdepth hseparator
  | @group separators inner rest opening closing hpair _ _ ihInner ih =>
    obtain ⟨hopening, hclosing⟩ := bracketStep_of_pair hpair
    have hbracket : ∀ {c : Char} {d : Int}, bracketStep c ≠ 0 → separatesAt separator c d = false := by
      intro c d hc
      rw [separatesAt, beq_false_of_ne hc, Bool.and_false, Bool.false_and]
    have hinner : Signature.openBehind? separator (depth + 1) inner = some (depth + 1) :=
      ihInner (by omega) fun hzero => absurd hzero (by omega)
    rw [Signature.openBehind?, hbracket (by omega), hopening, if_neg Bool.false_ne_true,
      openBehind?_append, hinner, Option.bind_some, Signature.openBehind?, hbracket (by omega), hclosing,
      if_neg Bool.false_ne_true, Int.add_neg_cancel_right]
    exact ih hdepth hseparator

theorem openBehind?_zero (h : IsBalanced separators cs) (hseparator : separator ∈ separators) :
    Signature.openBehind? separator 0 cs = some 0 :=
  h.openBehind? (Int.le_refl 0) fun _ => hseparator

/-- **A balanced text closes the parentheses that it opens.** -/
theorem closes (h : IsBalanced separators cs) : Closes 0 cs := by
  induction h with
  | nil => exact closes_nil.2 rfl
  | @cons separators rest c hstep hc _ ih =>
    refine closes_cons.2 ⟨0, ?_, ih⟩
    rw [parenStep, if_neg (by rintro rfl; cases hstep), if_neg (by rintro rfl; cases hstep)]
    rfl
  | @group separators inner rest opening closing hpair _ _ ihInner ih =>
    have hall : ∀ pair ∈ bracketPairs, 0 ≤ parenStep pair.1 ∧ parenStep pair.2 = -parenStep pair.1 := by
      decide
    obtain ⟨hopening, hclosing⟩ : 0 ≤ parenStep opening ∧ parenStep closing = -parenStep opening :=
      hall _ hpair
    refine closes_cons.2 ⟨(parenStep opening).toNat, by omega, (ihInner.append_iff _).2 ?_⟩
    exact closes_cons.2 ⟨0, by omega, ih⟩

end IsBalanced

end ShaderMerge.Signature
