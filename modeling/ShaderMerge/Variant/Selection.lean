import ShaderMerge.Value

/-!
# Selecting a value by material

A property that differs between materials is set from the number of the material.  A
`Selection` is the cheapest of four ways to do so: one value for all, one material apart from
the others, a bit for each material between two values, or a constant array.
-/

namespace ShaderMerge.Variant

/-- How the value of a property is selected by the number of the material. -/
inductive Selection where
  /-- Every material has the value. -/
  | uniform (value : Value)
  /-- One material has a value of its own, the others share one. -/
  | singular (index : Nat) (own shared : Value)
  /-- Bit `i` of the mask tells which of two values material `i` has. -/
  | masked (mask : Nat) (unset set : Value)
  /-- The values by material. -/
  | indexed (values : List Value)
deriving DecidableEq, Repr

namespace Selection

/-- The greatest number of materials that a mask has bits for. -/
def maxMaskBits : Nat := 32

/-- The number whose bits are given, lowest first. -/
def ofBits : List Bool → Nat
  | [] => 0
  | b :: rest => (if b then 1 else 0) + 2 * ofBits rest

/-- Of two values, the one that a single material of the list has: the second one in a list of
two, else the first one that occurs once. -/
def singularValue? (values : List Value) (a b : Value) : Option Value :=
  if values.length = 2 then some b
  else if values.count a = 1 then some a
  else if values.count b = 1 then some b
  else none

/-- The selection for values of one type, of which the first is given. -/
def ofUnified (first : Value) (values : List Value) : Selection :=
  match values.eraseDups with
  | [value] => uniform value
  | [a, b] =>
    match singularValue? values a b with
    | some own => singular (values.idxOf own) own (if own = a then b else a)
    | none =>
      if values.length ≤ maxMaskBits then masked (ofBits (values.map (· == b))) first b
      else indexed values
  | _ => indexed values

/-- The selection for the values of the materials in order, brought to one type; `none` if
there are none. -/
def ofValues? (values : List Value) : Option Selection :=
  let values := Value.unify values
  values.head?.map (ofUnified · values)

/-- The type of the values in shader code. -/
def typeName : Selection → String
  | uniform value => value.typeName
  | singular _ _ shared => shared.typeName
  | masked _ unset _ => unset.typeName
  | indexed values => (values.head?.map Value.typeName).getD "float"

/-- The name of the constant array of a property. -/
def arrayName (property : String) : String := property ++ "OptimizerArray"

/-- The declaration of the constant array, for a selection that needs one. -/
def declaration? (s : Selection) (property : String) : Option String :=
  match s with
  | indexed values =>
    some ("static const " ++ s.typeName ++ " " ++ arrayName property ++ "["
      ++ toString values.length ++ "] = \x7b "
      ++ String.intercalate ", " (values.map Value.literal) ++ " \x7d;")
  | _ => none

/-- A number in upper-case hexadecimal digits. -/
def hexText (n : Nat) : String := String.ofList ((Nat.toDigits 16 n).map Char.toUpper)

/-- The expression that selects the value, given the expression for the number of the
material. -/
def expression (s : Selection) (property material : String) : String :=
  match s with
  | uniform value => value.literal
  | singular index own shared =>
    material ++ " == " ++ toString index ++ " ? " ++ own.literal ++ " : " ++ shared.literal
  | masked mask unset set =>
    "((0x" ++ hexText mask ++ "u >> " ++ material ++ ") & 1) ? " ++ set.literal ++ " : "
      ++ unset.literal
  | indexed _ => arrayName property ++ "[" ++ material ++ "]"

/-- The value that the expression selects for a material. -/
def select : Selection → Nat → Option Value
  | uniform value, _ => some value
  | singular index own shared, i => some (if i = index then own else shared)
  | masked mask unset set, i => some (if mask.testBit i then set else unset)
  | indexed values, i => values[i]?

end Selection

end ShaderMerge.Variant
