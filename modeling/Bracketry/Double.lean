/-
  This file defines the 64-bit binary floating-point numbers
  of the language by their bits.

  Every finite double is a whole number of units of `2 ^
  -1074`, so each operation is a computation on natural
  numbers.

  A double is written with the fewest decimal digits that
  read back as the same double.  The numbers that do form an
  interval around it, which includes its ends when the
  significand is even.  On the multiples of a power of ten
  only the two neighbours of the double matter, so the
  powers are tried downward.
-/

namespace Bracketry

/-
  A double is its 64 bits: one of sign, eleven of exponent
  and fifty-two of fraction.
-/
structure Double where
  bits : UInt64
deriving DecidableEq, Repr

namespace Double

/- The sign bit. -/
def negative (x : Double) : Bool :=
  decide (Nat.pow 2 63 ≤ x.bits.toNat)

/- The biased exponent field, between 0 and 2047. -/
def exponent (x : Double) : Nat :=
  x.bits.toNat / Nat.pow 2 52 % Nat.pow 2 11

/- The fraction field. -/
def fraction (x : Double) : Nat :=
  x.bits.toNat % Nat.pow 2 52

/- The exponent field is not full. -/
def IsFinite (x : Double) : Prop :=
  x.exponent ≠ 2047

instance (x : Double) : Decidable x.IsFinite := by
  unfold IsFinite
  infer_instance

/- A full exponent with a fraction is not a number. -/
def IsNaN (x : Double) : Prop :=
  x.exponent = 2047 ∧ x.fraction ≠ 0

instance (x : Double) : Decidable x.IsNaN := by
  unfold IsNaN
  infer_instance

/- The integer that the power of two is applied to. -/
def significand (x : Double) : Nat :=
  if x.exponent = 0 then x.fraction else
    Nat.pow 2 52 + x.fraction

/-
  The power of two applied to the significand, counted from
  the least one; the first two exponent fields share it.
-/
def scale (x : Double) : Nat :=
  x.exponent - 1

/- The magnitude, counted in units of `2 ^ -1074`. -/
def units (x : Double) : Nat :=
  x.significand * Nat.pow 2 x.scale

/- The zero with a clear sign bit. -/
def zero : Double :=
  ⟨0⟩

/- The integer nearest to `a / b`, or the even one. -/
def roundQuotient
    (a b : Nat) : Nat :=
  let quotient := a / b
  let remainder := a % b
  if b < 2 * remainder ∨
    (2 * remainder = b ∧ quotient % 2 = 1) then
    quotient + 1
  else
    quotient

/-
  The double nearest to `numerator / denominator`, a half
  going to the even significand and overflow to infinity.

  With `shift` chosen so that the rounded significand has at
  most fifty-three bits, exponent field and fraction are
  read off one sum, a carry moving into the exponent by
  itself.
-/
def ofRatio
    (negative : Bool)
    (numerator denominator : Nat) : Double :=
  let scaled := numerator * Nat.pow 2 1074
  let shift := Nat.log2 (scaled / denominator) - 52
  let rounded :=
    roundQuotient scaled (denominator * Nat.pow 2 shift)
  let infinite := 2047 * Nat.pow 2 52
  let magnitude :=
    min (shift * Nat.pow 2 52 + rounded) infinite
  let sign := if negative then Nat.pow 2 63 else 0
  ⟨UInt64.ofNat (sign + magnitude)⟩

/- The double nearest to an integer. -/
def ofInt (value : Int) : Double :=
  ofRatio (decide (value < 0)) value.natAbs 1

/-
  The double nearest to a decimal numeral: `digits` read as
  one number, the last `places` of them behind the point.
-/
def ofDecimal
    (digits places : Nat) : Double :=
  ofRatio false digits (Nat.pow 10 places)

/- The double with the opposite sign bit. -/
def neg (x : Double) : Double :=
  ⟨x.bits ^^^ 0x8000000000000000⟩

/-
  The integer part, clamped to 32 bits; what is not a number
  counts as zero.
-/
def toInt32 (x : Double) : Int :=
  if x.IsNaN then
    0
  else
    let whole : Int := (x.units / Nat.pow 2 1074 : Nat)
    let signed := if x.negative then -whole else whole
    max (-2147483648) (min signed 2147483647)

/-
  Equality as numbers: the two zeros are equal, and what is
  not a number equals nothing.
-/
def numEq (x y : Double) : Bool :=
  if x.IsNaN ∨ y.IsNaN then
    false
  else
    x = y || (x.units = 0 && y.units = 0)

end Double

/- The number `coefficient * 10 ^ exponent`. -/
structure Decimal where
  coefficient : Nat
  exponent : Int
deriving DecidableEq, Repr

namespace Double

/-
  The ends of the interval and the double itself are counted
  in quarters of a unit, since the interval reaches half way
  to the neighbours.
-/
def quarters (x : Double) : Nat :=
  4 * x.units

/-
  The lower end; below a power of two the next double is
  only half as far away.
-/
def lowerEnd (x : Double) : Nat :=
  if x.fraction = 0 ∧ 1 < x.exponent then
    x.quarters - Nat.pow 2 x.scale
  else
    x.quarters - 2 * Nat.pow 2 x.scale

/- The upper end. -/
def upperEnd (x : Double) : Nat :=
  x.quarters + 2 * Nat.pow 2 x.scale

/-
  Whether the fraction `numerator / denominator`, counted in
  quarters of a unit, reads back as the double.
-/
def readsBack
    (x : Double)
    (numerator denominator : Nat) : Bool :=
  let low := x.lowerEnd * denominator
  let high := x.upperEnd * denominator
  if x.fraction % 2 = 0 then
    decide (low ≤ numerator ∧ numerator ≤ high)
  else
    decide (low < numerator ∧ numerator < high)

/-
  The multiple of `10 ^ power` next to the double that reads
  back as it, the nearer one when both neighbours do; half
  way between them the upper one is taken.
-/
def neighbour?
    (x : Double)
    (power : Int) : Option Nat :=
  let step := Nat.pow 2 1076 * Nat.pow 10 power.toNat
  let refine := Nat.pow 10 (-power).toNat
  let value := x.quarters * refine
  let below := value / step
  let above := below + 1
  match x.readsBack (below * step) refine,
      x.readsBack (above * step) refine with
  | true, true =>
      if 2 * (value % step) < step then some below else
        some above
  | true, false => some below
  | false, true => some above
  | false, false => none

/- Try the powers of ten downward from `power`. -/
def searchDigits
    (x : Double) :
    Nat → Int → Decimal
| 0, power => ⟨0, power⟩
| tries + 1, power =>
    match x.neighbour? power with
    | some coefficient => ⟨coefficient, power⟩
    | none => searchDigits x tries (power - 1)

/-
  The fewest digits of a positive finite double.  The first
  power tried lies above the double, and seventeen digits
  always read back, so the search ends well before its
  bound.
-/
def shortest (x : Double) : Decimal :=
  if x.units = 0 then
    ⟨0, 0⟩
  else
    let estimate : Int :=
      (Nat.log2 x.units * 30103 / 100000 : Nat)
    searchDigits x 25 (estimate - 321)

end Double

namespace Decimal

/- The digits of the coefficient, most significant first. -/
def digits (d : Decimal) : List Char :=
  Nat.toDigits 10 d.coefficient

/- The power of ten of the first digit. -/
def magnitude (d : Decimal) : Int :=
  d.exponent + d.digits.length - 1

/-
  The digits before the point and those behind it, written
  without a power of ten.
-/
def positional (d : Decimal) : List Char × List Char :=
  if 0 ≤ d.exponent then
    (d.digits ++ List.replicate d.exponent.toNat '0', [])
  else
    let places := (-d.exponent).toNat
    let missing := places + 1 - d.digits.length
    let padded := List.replicate missing '0' ++ d.digits
    padded.splitAt (padded.length - places)

/- The first digit and the others, for a power of ten. -/
def scientific (d : Decimal) : List Char × List Char :=
  d.digits.splitAt 1

end Decimal

namespace Double

/- The minus sign of a negative double. -/
def signText (x : Double) : String :=
  if x.negative then "-" else ""

/-
  Positional text with the fewest digits; whole numbers have
  no point.
-/
def plainText (x : Double) : String :=
  if x.IsNaN then
    "NaN"
  else if ¬ x.IsFinite then
    x.signText ++ "inf"
  else
    let (whole, places) := x.shortest.positional
    let point := if places.isEmpty then [] else
      '.' :: places
    x.signText ++ String.ofList (whole ++ point)

/- The sixteen hexadecimal digits of the bits. -/
def hexText (x : Double) : String :=
  let digits :=
    (Nat.toDigits 16 x.bits.toNat).map Char.toUpper
  String.ofList
    (List.replicate (16 - digits.length) '0' ++ digits)

/-
  Text of an operand: there is always a digit behind the
  point, magnitudes outside `10 ^ -4` to `10 ^ 16` carry a
  power of ten, and what is not finite is given by its bits.
-/
def operandText (x : Double) : String :=
  if ¬ x.IsFinite then
    "0x" ++ x.hexText
  else
    let shortest := x.shortest
    let plain :=
      decide (-4 ≤ shortest.magnitude ∧
        shortest.magnitude < 16)
    let (whole, places) :=
      if plain then shortest.positional else
        shortest.scientific
    let places := if places.isEmpty then ['0'] else places
    let power := if plain then "" else
      "e" ++ toString shortest.magnitude
    x.signText ++ String.ofList (whole ++ '.' :: places) ++
      power

end Double

end Bracketry
