import ShaderMerge.Number.Shortest

/-!
# Property values

The value of a material property is a float, an integer or a vector of four floats.  Equality
is equality of the bits: the two zeros are different values, and a NaN is equal to itself.
-/

namespace ShaderMerge

/-- Four floats. -/
structure Vector4 where
  /-- The first component. -/
  x : Binary32
  /-- The second component. -/
  y : Binary32
  /-- The third component. -/
  z : Binary32
  /-- The fourth component. -/
  w : Binary32
deriving DecidableEq, Inhabited, Repr

namespace Vector4

/-- The vector of one number in all components. -/
def splat (v : Binary32) : Vector4 := ⟨v, v, v, v⟩

/-- The vector of zeros. -/
def zero : Vector4 := splat .zero

/-- The components in order. -/
def components (v : Vector4) : List Binary32 := [v.x, v.y, v.z, v.w]

/-- The vector whose first components are given, and whose other ones are zero. -/
def ofComponents (cs : List Binary32) : Vector4 :=
  ⟨cs[0]?.getD .zero, cs[1]?.getD .zero, cs[2]?.getD .zero, cs[3]?.getD .zero⟩

/-- A component by its place. -/
def get (v : Vector4) : Fin 4 → Binary32
  | 0 => v.x
  | 1 => v.y
  | 2 => v.z
  | 3 => v.w

/-- The vector with another component at a place. -/
def set (v : Vector4) (place : Fin 4) (c : Binary32) : Vector4 :=
  match place with
  | 0 => { v with x := c }
  | 1 => { v with y := c }
  | 2 => { v with z := c }
  | 3 => { v with w := c }

end Vector4

/-- The value of a property. -/
inductive Value where
  /-- A float. -/
  | float (v : Binary32)
  /-- An integer. -/
  | int (v : Int32)
  /-- A vector. -/
  | vector (v : Vector4)
deriving DecidableEq, Repr

/-- A float as a literal of shader code.  Numbers that are not finite have no literal and are
spelled by their bits. -/
def floatLiteral (v : Binary32) : String :=
  if v.isNaN then "asfloat(0x7fc00000)"
  else if v.isInfinite then
    if v.isNegative then "asfloat(0xff800000)" else "asfloat(0x7f800000)"
  else NumberLayout.literal.text v

/-- A vector as an expression of shader code. -/
def vectorLiteral (v : Vector4) : String :=
  "float4(" ++ String.intercalate ", " (v.components.map floatLiteral) ++ ")"

namespace Value

/-- The type that holds the value in shader code. -/
def typeName : Value → String
  | float _ => "float"
  | int _ => "int"
  | vector _ => "float4"

/-- The value as an expression of shader code. -/
def literal : Value → String
  | float v => floatLiteral v
  | int v => toString v.toInt
  | vector v => vectorLiteral v

/-- The value as one number; a vector has none. -/
def scalar? : Value → Option Binary32
  | float v => some v
  | int v => some (Binary32.ofInt v.toInt)
  | vector _ => none

/-- Whether the value is a vector. -/
def isVector : Value → Bool
  | vector _ => true
  | _ => false

/-- Whether the value is a float. -/
def isFloat : Value → Bool
  | float _ => true
  | _ => false

/-- The value as a vector, a number in all components. -/
def toVector : Value → Value
  | float v => vector (.splat v)
  | int v => vector (.splat (Binary32.ofInt v.toInt))
  | vector v => vector v

/-- The value with an integer as a float. -/
def toFloat : Value → Value
  | int v => float (Binary32.ofInt v.toInt)
  | v => v

/-- Values brought to one type: vectors if there is one, else floats if there is one. -/
def unify (values : List Value) : List Value :=
  if values.any isVector then values.map toVector
  else if values.any isFloat then values.map toFloat
  else values

end Value

end ShaderMerge
