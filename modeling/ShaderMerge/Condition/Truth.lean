/-!
# Three-valued truth

What is known about a condition: that it holds, that it fails, or nothing.  The connectives are
those of Kleene: the result is known as soon as the known parts force it.
-/

namespace ShaderMerge

/-- The value of a condition. -/
inductive Truth where
  /-- The condition is known to hold. -/
  | yes
  /-- The condition is known to fail. -/
  | no
  /-- Nothing is known. -/
  | unknown
deriving DecidableEq, Inhabited, Repr

namespace Truth

/-- A value that is known. -/
def ofBool : Bool → Truth
  | true => yes
  | false => no

/-- Whether the value is known. -/
def isKnown : Truth → Bool
  | unknown => false
  | _ => true

/-- Negation; what is unknown stays unknown. -/
def not : Truth → Truth
  | yes => no
  | no => yes
  | unknown => unknown

/-- Conjunction: one part that fails decides. -/
def and : Truth → Truth → Truth
  | no, _ => no
  | _, no => no
  | yes, yes => yes
  | _, _ => unknown

/-- Disjunction: one part that holds decides. -/
def or : Truth → Truth → Truth
  | yes, _ => yes
  | _, yes => yes
  | no, no => no
  | _, _ => unknown

/-! ## Small laws -/

@[simp] theorem not_not (a : Truth) : a.not.not = a := by cases a <;> rfl

@[simp] theorem not_ofBool (b : Bool) : (ofBool b).not = ofBool !b := by cases b <;> rfl

@[simp] theorem and_ofBool (a b : Bool) : (ofBool a).and (ofBool b) = ofBool (a && b) := by
  cases a <;> cases b <;> rfl

@[simp] theorem or_ofBool (a b : Bool) : (ofBool a).or (ofBool b) = ofBool (a || b) := by
  cases a <;> cases b <;> rfl

end Truth

end ShaderMerge
