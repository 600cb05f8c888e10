import ContractLinker.Text.Basic

/-
  Decimal numerals.

  Key definitions include:
    * `Decimal.ofNat`
    * `Decimal.ofInt`
    * `Decimal.digit`
    * `Decimal.value`
-/

------------------------------------------------------------
-- Decimal Digits
------------------------------------------------------------

namespace ContractLinker

namespace Decimal

/- The digit of a value below ten. -/
def digit (n : Nat) : UInt8 :=
  '0'.toUInt8 + n.toUInt8

/- The value of a digit. -/
def digitValue (b : UInt8) : Nat :=
  (b - '0'.toUInt8).toNat

/- The number which a text of digits denotes. -/
def value (s : Text) : Nat :=
  s.foldl (fun n b => n * 10 + digitValue b) 0

------------------------------------------------------------
-- Numerals
------------------------------------------------------------

/-
  Write the digits of a number in front of a text. One unit
  of fuel is spent on each digit.
-/
def digitsBefore : Nat → Nat → Text → Text
  | 0, _, back => back
  | fuel + 1, n, back =>
      if n < 10 then
        digit n :: back
      else
        digitsBefore fuel (n / 10) (digit (n % 10) :: back)

/- The shortest decimal numeral of a natural number. -/
def ofNat (n : Nat) : Text :=
  digitsBefore (n + 1) n []

/- The decimal numeral of an integer. -/
def ofInt : Int → Text
  | .ofNat n => ofNat n
  | .negSucc n => '-'.toUInt8 :: ofNat (n + 1)

end Decimal

end ContractLinker
