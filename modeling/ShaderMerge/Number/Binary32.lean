/-!
# Binary32 numbers

A `Binary32` is a floating point number of the binary32 format, given by its 32 bits: a sign,
eight bits of exponent and twenty-three of fraction.  Equality of the type is equality of
the bits, so the two zeros differ and a NaN equals itself; the order of the numbers is
`eq`, `lt` and `le`, where the zeros are equal and a NaN is in no relation.

`ofRatio` rounds a quotient of natural numbers to the nearest number, a tie to the even one.
Everything is exact arithmetic on natural numbers.
-/

namespace ShaderMerge

/-- A binary32 floating point number. -/
structure Binary32 where
  /-- Sign, exponent and fraction, from the highest bit down. -/
  bits : UInt32
deriving DecidableEq, Inhabited, Repr

namespace Binary32

/-- The number of values of the fraction. -/
def fractionSize : Nat := Nat.pow 2 23

/-- The magnitude of the infinities. -/
def infiniteMagnitude : Nat := 255 * fractionSize

/-- Whether the sign bit is set. -/
def isNegative (x : Binary32) : Bool := Nat.pow 2 31 ≤ x.bits.toNat

/-- The bits below the sign; numbers of one sign are ordered as these are. -/
def magnitude (x : Binary32) : Nat := x.bits.toNat % Nat.pow 2 31

/-- Whether this is not a number. -/
def isNaN (x : Binary32) : Bool := infiniteMagnitude < x.magnitude

/-- Whether this is one of the two infinities. -/
def isInfinite (x : Binary32) : Bool := x.magnitude == infiniteMagnitude

/-- The number of a sign and a magnitude. -/
def ofMagnitude (negative : Bool) (magnitude : Nat) : Binary32 :=
  ⟨UInt32.ofNat (if negative then Nat.pow 2 31 + magnitude else magnitude)⟩

/-- Zero with the sign bit clear. -/
def zero : Binary32 := ⟨0⟩

/-- The number one half. -/
def half : Binary32 := ⟨0x3F000000⟩

/-- The number one. -/
def one : Binary32 := ⟨0x3F800000⟩

/-- The infinity of a sign. -/
def infinity (negative : Bool) : Binary32 := ofMagnitude negative infiniteMagnitude

/-- The quiet NaN of a sign. -/
def notANumber (negative : Bool) : Binary32 :=
  ofMagnitude negative (infiniteMagnitude + Nat.pow 2 22)

/-! ## Order -/

/-- A place on the number line such that the two zeros fall together. -/
def rank (x : Binary32) : Int :=
  if x.isNegative then - (x.magnitude : Int) else x.magnitude

/-- Numeric equality. -/
def eq (x y : Binary32) : Bool := !x.isNaN && !y.isNaN && x.rank == y.rank

/-- The numeric order. -/
def lt (x y : Binary32) : Bool := !x.isNaN && !y.isNaN && x.rank < y.rank

/-- The numeric order or equality. -/
def le (x y : Binary32) : Bool := !x.isNaN && !y.isNaN && x.rank ≤ y.rank

/-! ## Value -/

/-- The significand and the power of two of a finite number. -/
def parts (x : Binary32) : Nat × Int :=
  let exponent := x.magnitude / fractionSize
  let fraction := x.magnitude % fractionSize
  if exponent = 0 then (fraction, -149) else (fractionSize + fraction, (exponent : Int) - 150)

/-! ## Rounding -/

/-- A quotient rounded to the nearest natural number, a tie to the even one. -/
def roundedQuotient (num den : Nat) : Nat :=
  let q := num / den
  let twice := 2 * (num % den)
  if twice < den then q
  else if den < twice then q + 1
  else q + q % 2

/-- The greatest `e` with `2 ^ e ≤ num / den`, for positive arguments. -/
def floorLog2 (num den : Nat) : Int :=
  let e := (Nat.log2 num : Int) - Nat.log2 den
  let fits :=
    if 0 ≤ e then den * Nat.pow 2 e.toNat ≤ num else den ≤ num * Nat.pow 2 (-e).toNat
  if fits then e else e - 1

/-- The number nearest to a quotient with a sign, a tie going to the even significand.  A
quotient beyond the greatest number gives infinity. -/
def ofRatio (negative : Bool) (num den : Nat) : Binary32 :=
  if num = 0 then ofMagnitude negative 0
  else
    let e := max (-149) (floorLog2 num den - 23)
    let significand :=
      if 0 ≤ e then roundedQuotient num (den * Nat.pow 2 e.toNat)
      else roundedQuotient (num * Nat.pow 2 (-e).toNat) den
    ofMagnitude negative (min infiniteMagnitude ((e + 149).toNat * fractionSize + significand))

/-- The number nearest to an integer. -/
def ofInt (i : Int) : Binary32 := ofRatio (i < 0) i.natAbs 1

/-- The integer part of a number, held within the range of 32-bit integers; NaN gives zero. -/
def toInt32 (x : Binary32) : Int32 :=
  if x.isNaN then 0
  else
    let (significand, e) := x.parts
    let whole : Nat :=
      if x.isInfinite then Nat.pow 2 31
      else if 0 ≤ e then significand * Nat.pow 2 e.toNat
      else significand / Nat.pow 2 (-e).toNat
    if x.isNegative then Int32.ofInt (max (-(Nat.pow 2 31 : Int)) (-(whole : Int)))
    else Int32.ofInt (min ((Nat.pow 2 31 : Int) - 1) whole)

end Binary32

end ShaderMerge
