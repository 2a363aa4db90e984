import ShaderMerge.Number.Binary32

/-!
# The shortest decimal of a number

`Binary32.shortest` finds the decimal with the fewest digits among those that round to a given
finite number, and of several such the nearest.  The reals that round to a number form an
interval around it, which has its ends iff the significand is even.  The search goes through
the decimal grids from coarse to fine, and on each looks at the two points next to the number.

`NumberLayout` says how such a decimal is written; the two layouts of generated shaders are
`NumberLayout.literal` for code and `NumberLayout.plain` for declarations of properties.
-/

namespace ShaderMerge

namespace Binary32

/-- A positive number with the interval of the reals that round to it, as natural numbers over
one denominator. -/
structure Neighbourhood where
  /-- The number. -/
  value : Nat
  /-- The lower end of the interval. -/
  low : Nat
  /-- The upper end of the interval. -/
  high : Nat
  /-- The common denominator. -/
  den : Nat
  /-- Whether the two ends belong to the interval. -/
  closed : Bool

/-- The neighbourhood of a finite number that is not zero.  The number below a power of two is
only half as far as the one above it, unless both are subnormal or the least normal ones. -/
def neighbourhood (x : Binary32) : Neighbourhood :=
  let (significand, e) := x.parts
  -- In quarters of the last place, all bounds are whole numbers.
  let scale := e - 2
  let up := Nat.pow 2 scale.toNat
  let below := if significand = fractionSize && -149 < e then 1 else 2
  { value := 4 * significand * up
    low := (4 * significand - below) * up
    high := (4 * significand + 2) * up
    den := Nat.pow 2 (-scale).toNat
    closed := significand % 2 == 0 }

/-- Whether `digits * 10 ^ place` lies in the interval. -/
def Neighbourhood.holds (n : Neighbourhood) (digits : Nat) (place : Int) : Bool :=
  let point := digits * Nat.pow 10 place.toNat * n.den
  let unit := Nat.pow 10 (-place).toNat
  if n.closed then n.low * unit ≤ point && point ≤ n.high * unit
  else n.low * unit < point && point < n.high * unit

/-- Look for a point of the interval on the grids of the powers of ten from `place` down; of
two points on one grid the nearer is taken, and the upper one when they are equally near. -/
def Neighbourhood.search (n : Neighbourhood) : Nat → Int → Nat × Int
  | 0, place => (0, place)
  | fuel + 1, place =>
    let num := n.value * Nat.pow 10 (-place).toNat
    let unit := n.den * Nat.pow 10 place.toNat
    let down := num / unit
    let up := down + 1
    match n.holds down place, n.holds up place with
    | true, true => if unit ≤ 2 * (num % unit) then (up, place) else (down, place)
    | true, false => (down, place)
    | false, true => (up, place)
    | false, false => search n fuel (place - 1)

/-- The shortest decimal of a finite number that is not zero, as digits and the power of ten of
the last one.  No number of the format reaches 10 ^ 39, and none needs a digit below the
hundredth place behind the point. -/
def shortest (x : Binary32) : Nat × Int :=
  x.neighbourhood.search 140 39

end Binary32

/-- How a number is written in decimal. -/
structure NumberLayout where
  /-- The exponents of the first digit from the first bound up to below the second one are
  written positionally; without bounds all are. -/
  positional : Option (Int × Int)
  /-- Whether a whole number that is written positionally gets `.0`. -/
  keepsPoint : Bool
deriving DecidableEq, Repr

namespace NumberLayout

/-- Numbers in code have a point or an exponent: positional from `0.0001` up to below
`10 ^ 16`. -/
def literal : NumberLayout := ⟨some (-4, 16), true⟩

/-- Numbers in declarations of properties never have an exponent, and whole ones no point. -/
def plain : NumberLayout := ⟨none, false⟩

/-- The text of a decimal that is written positionally. -/
def positionalText (keepsPoint : Bool) (digits : List Char) (place : Int) : List Char :=
  if 0 ≤ place then
    digits ++ List.replicate place.toNat '0' ++ (if keepsPoint then ['.', '0'] else [])
  else
    let behind := (-place).toNat
    if behind < digits.length then
      digits.take (digits.length - behind) ++ '.' :: digits.drop (digits.length - behind)
    else '0' :: '.' :: List.replicate (behind - digits.length) '0' ++ digits

/-- The text of a decimal that is written with an exponent. -/
def exponentText (digits : List Char) (exponent : Int) : List Char :=
  let mantissa :=
    match digits with
    | first :: second :: rest => first :: '.' :: second :: rest
    | short => short
  mantissa ++ 'e' :: (toString exponent).toList

/-- The text of a number without its sign. -/
def unsignedText (layout : NumberLayout) (x : Binary32) : List Char :=
  if x.isInfinite then "inf".toList
  else if x.magnitude = 0 then if layout.keepsPoint then "0.0".toList else "0".toList
  else
    let (value, place) := x.shortest
    let digits := Nat.toDigits 10 value
    let exponent := place + digits.length - 1
    let positional := layout.positional.all fun (low, high) => low ≤ exponent && exponent < high
    if positional then positionalText layout.keepsPoint digits place
    else exponentText digits exponent

/-- The text of a number; a NaN has no sign. -/
def text (layout : NumberLayout) (x : Binary32) : String :=
  if x.isNaN then "NaN"
  else String.ofList ((if x.isNegative then ['-'] else []) ++ layout.unsignedText x)

end NumberLayout

end ShaderMerge
