import ShaderMerge.Proofs.Condition.Preprocessor
import ShaderMerge.Proofs.Condition.Trim

/-!
# Known values are right

A condition may be decided from what is known of some names only.  Where the filter gives it a
value, that is the value under every choice of symbols that extends what is known: `Expr.holds`,
the value in C, for the conditions of the grammar (`Expr.holds_of_truth`), and so the value that a
classical oracle gives (`Oracle.IsClassical.isSound`).

`Oracle.IsSound` is the form in which the simulation uses this; it also speaks of filters that
answer some conditions from a usage table.
-/

namespace ShaderMerge

namespace Truth

@[simp] theorem ofBool_inj {a b : Bool} : ofBool a = ofBool b ↔ a = b := by
  cases a <;> cases b <;> simp [ofBool]

theorem ofBool_ne_unknown (b : Bool) : ofBool b ≠ unknown := by
  cases b <;> simp [ofBool]

/-- A known conjunction is that of any values which its parts have where they are known. -/
theorem bool_of_and {s t : Truth} {a b value : Bool} (h : s.and t = ofBool value)
    (hs : ∀ v, s = ofBool v → a = v) (ht : ∀ v, t = ofBool v → b = v) : (a && b) = value := by
  cases s <;> cases t <;> cases value <;> simp_all [Truth.and, ofBool]

/-- A known disjunction is that of any values which its parts have where they are known. -/
theorem bool_of_or {s t : Truth} {a b value : Bool} (h : s.or t = ofBool value)
    (hs : ∀ v, s = ofBool v → a = v) (ht : ∀ v, t = ofBool v → b = v) : (a || b) = value := by
  cases s <;> cases t <;> cases value <;> simp_all [Truth.or, ofBool]

end Truth

namespace Condition

/-- Symbols that agree with what is known of names. -/
def Symbols.Extends (σ : Symbols) (known : String → Truth) : Prop :=
  ∀ name value, known name = Truth.ofBool value → σ name = value

/-! ## Expressions -/

/-- A chain of conjunctions alone has closed no conjunction. -/
theorem Expr.parts_fst_of_isUniform_and (σ : Symbols) {e : Expr} (h : e.isUniform .and = true) :
    (e.parts σ).1 = false := by
  induction e with
  | join joiner chain last ihChain _ =>
    simp only [Expr.isUniform, Bool.and_eq_true, beq_iff_eq] at h
    obtain ⟨rfl, hchain⟩ := h
    exact ihChain hchain
  | _ => rfl

/-- A value that is known is the value in C, whatever the symbols that nothing is known of. -/
theorem Expr.holds_of_truth {known : String → Truth} {σ : Symbols} (hσ : σ.Extends known)
    {e : Expr} {value : Bool} (h : e.truth known = Truth.ofBool value) : e.holds σ = value := by
  induction e generalizing value with
  | literal b =>
    rw [Truth.ofBool_inj.1 h]
    rfl
  | defined name => exact hσ name value h
  | not term ih =>
    have hterm : term.truth known = Truth.ofBool !value := by
      rw [← Truth.not_ofBool, ← h, Expr.truth, Truth.not_not]
    have hnot : (Expr.not term).holds σ = !term.holds σ := rfl
    rw [hnot, ih hterm, Bool.not_not]
  | group inner ih => exact ih h
  | join joiner chain last ihChain ihLast =>
    simp only [Expr.truth] at h
    split at h
    · rename_i huniform
      cases joiner with
      | and =>
        have hclosed := Expr.parts_fst_of_isUniform_and σ huniform
        have hchain : chain.holds σ = (chain.parts σ).2 := by rw [Expr.holds, hclosed]; rfl
        have hjoin : (Expr.join .and chain last).holds σ = (chain.holds σ && last.holds σ) := by
          rw [hchain]
          simp only [Expr.holds, Expr.parts, hclosed, Bool.false_or]
        rw [hjoin]
        exact Truth.bool_of_and h (fun b => ihChain) (fun b => ihLast)
      | or =>
        have hjoin : (Expr.join .or chain last).holds σ = (chain.holds σ || last.holds σ) := rfl
        rw [hjoin]
        exact Truth.bool_of_or h (fun b => ihChain) (fun b => ihLast)
    · -- A chain with both kinds of joiner has no known value.
      cases value <;> cases h

/-! ## Oracles -/

/-- An oracle that confirms what a filter with a usage table decides, under all symbols that
extend what the filter knows. -/
def Oracle.IsSound (oracle : Oracle) (usage : UsageTable) : Prop :=
  ∀ f : Filter, f.usage = usage → ∀ text value, f.evaluate text = Truth.ofBool value →
    ∀ σ : Symbols, σ.Extends f.defined → oracle (Text.trim text) σ = value

/-- Without a usage table a filter decides only conditions of the grammar. -/
theorem Oracle.IsClassical.isSound {oracle : Oracle} (h : oracle.IsClassical) :
    oracle.IsSound ∅ := by
  intro f husage text value hvalue σ hσ
  have hbind : (guardedSymbol? text).bind f.usage.get? = none := by
    rw [husage]
    cases guardedSymbol? text <;> rfl
  rw [Filter.evaluate, hbind] at hvalue
  simp only [evaluate] at hvalue
  split at hvalue
  · rename_i e hread
    rw [h text e (Expr.read_trim hread) σ]
    exact Expr.holds_of_truth hσ hvalue
  · exact absurd hvalue.symm (Truth.ofBool_ne_unknown value)

end Condition

end ShaderMerge
