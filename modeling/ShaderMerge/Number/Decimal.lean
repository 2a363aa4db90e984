import ShaderMerge.Number.Binary32

/-!
# Decimal texts of numbers

A decimal text is an optional sign and then either `inf`, `infinity` or `nan` in any letter
case, or digits with at most one point among, before or behind them and an optional exponent.
`Binary32.ofText?` reads one and gives the number nearest to it.
-/

namespace ShaderMerge

/-- A decimal number: its sign, its digits as one natural number, and the power of ten of the
last digit. -/
structure Decimal where
  /-- Whether a minus stands in front. -/
  negative : Bool
  /-- All digits, those behind the point included. -/
  digits : Nat
  /-- The power of ten of the last digit. -/
  exponent : Int
deriving DecidableEq, Repr

namespace Decimal

/-- The value of a text of decimal digits. -/
def digitsValue (cs : List Char) : Nat :=
  cs.foldl (fun n c => 10 * n + (c.toNat - '0'.toNat)) 0

/-- An optional sign at the start of a text; true for a minus. -/
def sign : List Char → Bool × List Char
  | '-' :: rest => (true, rest)
  | '+' :: rest => (false, rest)
  | cs => (false, cs)

/-- The exponent behind the digits: nothing at all, or `e` with a whole number. -/
def exponent? : List Char → Option Int
  | [] => some 0
  | c :: rest =>
    if c = 'e' || c = 'E' then
      let (negative, ds) := sign rest
      if ds.isEmpty || !ds.all Char.isDigit then none
      else some (if negative then - (digitsValue ds : Int) else digitsValue ds)
    else none

/-- Read an unsigned decimal text that has at least one digit before or behind its point. -/
def unsigned? (negative : Bool) (cs : List Char) : Option Decimal :=
  let whole := cs.takeWhile Char.isDigit
  let (fraction, rest) :=
    match cs.dropWhile Char.isDigit with
    | '.' :: tail => (tail.takeWhile Char.isDigit, tail.dropWhile Char.isDigit)
    | tail => ([], tail)
  if whole.isEmpty && fraction.isEmpty then none
  else (exponent? rest).map fun e =>
    { negative, digits := digitsValue (whole ++ fraction), exponent := e - fraction.length }

/-- The number nearest to a decimal.  Decimals far outside the range of the format are decided
by the place of their first digit. -/
def toBinary32 (d : Decimal) : Binary32 :=
  let places := ((Nat.toDigits 10 d.digits).length : Int) + d.exponent
  if d.digits = 0 then Binary32.ofMagnitude d.negative 0
  else if 60 < places then Binary32.infinity d.negative
  else if places < -60 then Binary32.ofMagnitude d.negative 0
  else if 0 ≤ d.exponent then
    Binary32.ofRatio d.negative (d.digits * Nat.pow 10 d.exponent.toNat) 1
  else
    Binary32.ofRatio d.negative d.digits (Nat.pow 10 (-d.exponent).toNat)

end Decimal

/-- Read the decimal text of a number. -/
def Binary32.ofText? (cs : List Char) : Option Binary32 :=
  let (negative, rest) := Decimal.sign cs
  let letters := rest.map Char.toLower
  if letters = "inf".toList || letters = "infinity".toList then some (infinity negative)
  else if letters = "nan".toList then some (notANumber negative)
  else (Decimal.unsigned? negative rest).map Decimal.toBinary32

end ShaderMerge
