import ShaderMerge.Table
import ShaderMerge.Text.Scan
import ShaderMerge.Number.Decimal

/-!
# Conditions on property values

The condition of an `#ifex` region is a conjunction of comparisons `name op number`.
`decide` evaluates it for the properties whose values are known: a comparison that fails decides
the whole condition, and else one that cannot be decided leaves it open.
-/

namespace ShaderMerge.Region

/-- How a property is compared with a number. -/
inductive Relation where
  | equal
  | unequal
  | atMost
  | atLeast
  | below
  | above
deriving DecidableEq, Repr

namespace Relation

/-- Read a relation sign. -/
def read? : List Char → Option (Relation × List Char)
  | '=' :: '=' :: rest => some (equal, rest)
  | '!' :: '=' :: rest => some (unequal, rest)
  | '<' :: '=' :: rest => some (atMost, rest)
  | '>' :: '=' :: rest => some (atLeast, rest)
  | '<' :: rest => some (below, rest)
  | '>' :: rest => some (above, rest)
  | _ => none

theorem length_lt_of_read? {cs rest : List Char} {relation : Relation}
    (h : read? cs = some (relation, rest)) : rest.length < cs.length := by
  unfold read? at h
  split at h
  all_goals
    simp only [Option.some.injEq, Prod.mk.injEq, reduceCtorEq] at h
  all_goals
    obtain ⟨-, rfl⟩ := h
    simp only [List.length_cons]
    omega

/-- Whether two numbers stand in the relation. -/
def holds : Relation → Binary32 → Binary32 → Bool
  | equal, x, y => x.eq y
  | unequal, x, y => !x.eq y
  | atMost, x, y => x.le y
  | atLeast, x, y => y.le x
  | below, x, y => x.lt y
  | above, x, y => y.lt x

end Relation

/-- A comparison of a property with a number. -/
structure Comparison where
  /-- The property. -/
  property : String
  /-- How the two are compared. -/
  relation : Relation
  /-- The number. -/
  bound : Binary32
deriving DecidableEq, Repr

/-- The longest decimal text at the start: a sign, digits with at most one point, and an
exponent. -/
def numberText? (cs : List Char) : Option (List Char × List Char) :=
  let (signText, cs) :=
    match cs with
    | '-' :: rest => (['-'], rest)
    | '+' :: rest => (['+'], rest)
    | cs => ([], cs)
  let whole := cs.takeWhile Char.isDigit
  let (point, cs) :=
    match cs.dropWhile Char.isDigit with
    | '.' :: rest => ('.' :: rest.takeWhile Char.isDigit, rest.dropWhile Char.isDigit)
    | rest => ([], rest)
  if whole.isEmpty && point.length < 2 then none
  else
    let plain := signText ++ whole ++ point
    match cs with
    | [] => some (plain, [])
    | e :: rest =>
      if e = 'e' || e = 'E' then
        let (exponentSign, ds) :=
          match rest with
          | '-' :: tail => (['-'], tail)
          | '+' :: tail => (['+'], tail)
          | tail => ([], tail)
        let digits := ds.takeWhile Char.isDigit
        if digits.isEmpty then some (plain, cs)
        else some (plain ++ e :: exponentSign ++ digits, ds.dropWhile Char.isDigit)
      else some (plain, cs)

/-- Read a comparison that is the whole text; a letter `f` may follow the number. -/
def Comparison.read? (cs : List Char) : Option Comparison := do
  let (property, cs) ← Text.name? (Text.skipBlanks cs)
  let (relation, cs) ← Relation.read? (Text.skipBlanks cs)
  let (number, cs) ← numberText? (Text.skipBlanks cs)
  let bound ← Binary32.ofText? number
  let cs := match cs with
    | 'f' :: rest => rest
    | 'F' :: rest => rest
    | cs => cs
  if (Text.skipBlanks cs).isEmpty then some ⟨String.ofList property, relation, bound⟩ else none

/-- Cut a text at every `&&`. -/
def conjuncts : List Char → List (List Char)
  | [] => [[]]
  | '&' :: '&' :: rest => [] :: conjuncts rest
  | c :: rest =>
    match conjuncts rest with
    | [] => [[c]]
    | piece :: pieces => (c :: piece) :: pieces

/-- What is known of a conjunct; nothing if it is no comparison or its property has no known
value. -/
def conjunctValue (values : Table String Binary32) (cs : List Char) : Option Bool := do
  let comparison ← Comparison.read? cs
  let value ← values.get? comparison.property
  return comparison.relation.holds value comparison.bound

/-- The outcome of a condition. -/
inductive Outcome where
  /-- Every comparison holds: the region is kept. -/
  | keep
  /-- Some comparison fails: the region is dropped. -/
  | drop
  /-- The condition cannot be decided: its directives have no effect. -/
  | undecided
deriving DecidableEq, Repr

/-- The outcome of a condition for known property values.  A condition with `||` cannot be
decided. -/
def decide (condition : String) (values : Table String Binary32) : Outcome :=
  if Text.contains "||" condition then .undecided
  else
    let outcomes := (conjuncts condition.toList).map (conjunctValue values)
    if outcomes.contains (some false) then .drop
    else if outcomes.contains none then .undecided
    else .keep

/-! ## The properties of a condition -/

/-- The names that stand in front of a relation sign. -/
def comparedNames : List Char → List String
  | [] => []
  | c :: rest =>
    if Text.isNameStart c then
      let after := rest.dropWhile Text.isNameChar
      match _read : Relation.read? (Text.skipBlanks after) with
      | some (_, tail) =>
        String.ofList (c :: rest.takeWhile Text.isNameChar) :: comparedNames tail
      | none => comparedNames after
    else comparedNames rest
termination_by cs => cs.length
decreasing_by
  · have h₁ := Relation.length_lt_of_read? _read
    have h₂ := Text.length_skipBlanks_le after
    have h₃ : after.length ≤ rest.length := (List.dropWhile_sublist _).length_le
    simp only [List.length_cons]
    omega
  · have h₃ : (rest.dropWhile Text.isNameChar).length ≤ rest.length :=
      (List.dropWhile_sublist _).length_le
    simp only [List.length_cons]
    omega
  · simp

end ShaderMerge.Region
