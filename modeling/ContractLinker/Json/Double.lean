import ContractLinker.Text.Decimal

/-
  Binary floating-point numbers of 64 bits, read from and
  written as decimals. All arithmetic is on natural numbers
  and exact: reading rounds once, to the nearest double,
  and writing rounds once, to seventeen digits; a tie goes
  to the even neighbour both times. Decimals beyond the
  largest double are read as infinities.

  Key definitions include:
    * `Double`
    * `Double.ofRatio`
    * `Double.ofDecimal`
    * `Double.toInt?`
    * `Double.render`
-/

------------------------------------------------------------
-- Rounding
------------------------------------------------------------

namespace ContractLinker

/- The natural number nearest to a quotient, the even one of two. -/
def roundHalfEven (num den : Nat) : Nat :=
  let quotient := num / den
  let rest := num % den
  if 2 * rest < den then
    quotient
  else if den < 2 * rest then
    quotient + 1
  else
    quotient + quotient % 2

/- A ratio after multiplication by an integral power of a base. -/
def scale (base : Nat) (power : Int) (ratio : Nat × Nat) :
    Nat × Nat :=
  match power with
  | .ofNat n => (ratio.1 * base.pow n, ratio.2)
  | .negSucc n => (ratio.1, ratio.2 * base.pow (n + 1))

------------------------------------------------------------
-- Doubles
------------------------------------------------------------

/- A double, as its sign, its exponent and its fraction bits. -/
structure Double where
  bits : UInt64
deriving DecidableEq, Repr

namespace Double

/- Whether the sign bit is set. -/
def isNegative (x : Double) : Bool :=
  x.bits >>> 63 = 1

/- The eleven bits of the exponent. -/
def exponentBits (x : Double) : Nat :=
  ((x.bits >>> 52) &&& 0x7ff).toNat

/- The 52 bits of the fraction. -/
def fractionBits (x : Double) : Nat :=
  (x.bits &&& 0xfffffffffffff).toNat

/-
  The bit in front of the fraction, 52 places from the end.
  It is not stored: the exponent bits tell whether it is set.
-/
def leadingBit : Nat :=
  0x10000000000000

/- The sign bit, 63 places from the end. -/
def signBit : Nat :=
  0x8000000000000000

/- The infinity of a sign: all exponent bits and no fraction. -/
def infinity (negative : Bool) : Double :=
  if negative then ⟨0xfff0000000000000⟩ else ⟨0x7ff0000000000000⟩

/- The integer which the exponent scales. -/
def significand (x : Double) : Nat :=
  if x.exponentBits = 0 then
    x.fractionBits
  else
    x.fractionBits + leadingBit

/- The power of two by which the significand is scaled. -/
def exponent (x : Double) : Int :=
  if x.exponentBits = 0 then
    -1074
  else
    (x.exponentBits : Int) - 1075

/- The size of a double as a ratio. -/
def ratio (x : Double) : Nat × Nat :=
  scale 2 x.exponent (x.significand, 1)

------------------------------------------------------------
-- Reading
------------------------------------------------------------

/-
  The double of a sign, a rounded significand and an exponent,
  infinite if no finite one is as large.
-/
def assemble (negative : Bool) (significand : Nat)
    (exponent : Int) : Double :=
  let sign := if negative then signBit else 0
  if significand < leadingBit then
    ⟨(sign + significand).toUInt64⟩
  else
    let biased := exponent + 1075
    if biased < 2047 then
      ⟨(sign + biased.toNat * leadingBit +
        (significand - leadingBit)).toUInt64⟩
    else
      infinity negative

/-
  The double nearest to a ratio of natural numbers. Ratios
  half a step beyond the largest double are infinite.
-/
def ofRatio (negative : Bool) (num den : Nat) : Double :=
  if num = 0 then
    assemble negative 0 (-1074)
  else
    let coarse : Int :=
      max ((num.log2 : Int) - (den.log2 : Int) - 53) (-1074)
    let first := scale 2 (-coarse) (num, den)
    let exponent :=
      if first.1 / first.2 < 2 * leadingBit then
        coarse
      else
        coarse + 1
    let scaled := scale 2 (-exponent) (num, den)
    let significand := roundHalfEven scaled.1 scaled.2
    if significand < 2 * leadingBit then
      assemble negative significand exponent
    else
      assemble negative (significand / 2) (exponent + 1)

/-
  The double nearest to some decimal digits with a power of
  ten. Powers far outside the range of doubles are settled
  without computing them.
-/
def ofDecimal (negative : Bool) (digits : Text) (power : Int) :
    Double :=
  let significant := digits.dropWhile (· = '0'.toUInt8)
  let magnitude : Int := (significant.length : Int) + power
  if significant.isEmpty || magnitude < -400 then
    ofRatio negative 0 1
  else if 400 < magnitude then
    infinity negative
  else
    let r := scale 10 power (Decimal.value significant, 1)
    ofRatio negative r.1 r.2

------------------------------------------------------------
-- Integral Values
------------------------------------------------------------

/- The value of a double which is an integer. -/
def toInt? (x : Double) : Option Int :=
  if x.exponentBits = 0x7ff then
    none
  else
    let r := x.ratio
    if r.1 % r.2 = 0 then
      let size : Int := (r.1 / r.2 : Nat)
      some (if x.isNegative then -size else size)
    else
      none

------------------------------------------------------------
-- Writing
------------------------------------------------------------

/- The power of ten of the first digit of a ratio above zero. -/
def decimalExponent (num den : Nat) : Int :=
  if den ≤ num then
    ((Decimal.ofNat (num / den)).length : Int) - 1
  else
    -((Decimal.ofNat ((den - 1) / num)).length : Int)

/- Seventeen digits of a ratio above zero, and the power of the first. -/
def seventeenDigits (num den : Nat) : Text × Int :=
  let power := decimalExponent num den
  let scaled := scale 10 (16 - power) (num, den)
  let digits := roundHalfEven scaled.1 scaled.2
  if digits < 100000000000000000 then
    (Decimal.ofNat digits, power)
  else
    (Decimal.ofNat (digits / 10), power + 1)

/- Drop the zeros at the end of a text. -/
def dropZeros (s : Text) : Text :=
  (s.reverse.dropWhile (· = '0'.toUInt8)).reverse

/- A decimal point with the digits behind it, if there are any. -/
def fraction (digits : Text) : Text :=
  let kept := dropZeros digits
  if kept.isEmpty then [] else '.'.toUInt8 :: kept

/- A power of ten with its sign and at least two digits. -/
def powerText (power : Int) : Text :=
  let sign := if power < 0 then '-'.toUInt8 else '+'.toUInt8
  'e'.toUInt8 :: sign ::
    Text.padLeft 2 (Decimal.ofNat power.natAbs)

/-
  Place the decimal point: digits with a first power from
  -4 to 16 are written out, others with a power of ten.
-/
def layout (digits : Text) (power : Int) : Text :=
  if power < -4 || 16 < power then
    digits.take 1 ++ fraction (digits.drop 1) ++ powerText power
  else if power < 0 then
    ascii "0" ++
      fraction
        (List.replicate (power.natAbs - 1) '0'.toUInt8 ++ digits)
  else
    let whole := power.toNat + 1
    digits.take whole ++ fraction (digits.drop whole)

/- Up to seventeen significant digits, without a sign. -/
def magnitude (x : Double) : Text :=
  if x.exponentBits = 0x7ff then
    if x.fractionBits = 0 then ascii "inf" else ascii "nan"
  else if x.significand = 0 then
    ascii "0"
  else
    let digits := seventeenDigits x.ratio.1 x.ratio.2
    layout digits.1 digits.2

/-
  A double as text, which always shows that it is none of
  the integers: it has a decimal point or a power of ten.
-/
def render (x : Double) : Text :=
  let size := x.magnitude
  let marked :=
    if size.contains '.'.toUInt8 || size.contains 'e'.toUInt8 then
      size
    else
      size ++ ascii ".0"
  if x.isNegative then '-'.toUInt8 :: marked else marked

end Double

end ContractLinker
