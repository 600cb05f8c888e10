import ContractLinker.Text.Basic

/-
  Hexadecimal text.

  Key definitions include:
    * `Hex.Case`
    * `Hex.encode`
    * `Hex.value?`
    * `Hex.isNumeral`
-/

------------------------------------------------------------
-- Hexadecimal Digits
------------------------------------------------------------

namespace ContractLinker

namespace Hex

/- The case in which the digits above nine are written. -/
inductive Case where
  | lower
  | upper
deriving DecidableEq, Repr

/- The digit of a value below sixteen. -/
def digit (letters : Case) (v : UInt8) : UInt8 :=
  if v < 10 then
    '0'.toUInt8 + v
  else
    match letters with
    | .lower => 'a'.toUInt8 + (v - 10)
    | .upper => 'A'.toUInt8 + (v - 10)

/- The value of a digit of either case. -/
def value? (b : UInt8) : Option UInt8 :=
  if '0'.toUInt8 ≤ b && b ≤ '9'.toUInt8 then
    some (b - '0'.toUInt8)
  else if 'a'.toUInt8 ≤ b && b ≤ 'f'.toUInt8 then
    some (b - 'a'.toUInt8 + 10)
  else if 'A'.toUInt8 ≤ b && b ≤ 'F'.toUInt8 then
    some (b - 'A'.toUInt8 + 10)
  else
    none

------------------------------------------------------------
-- Hexadecimal Texts
------------------------------------------------------------

/- Write every byte as two digits, the high one first. -/
def encode (letters : Case) (bytes : List UInt8) : Text :=
  bytes.flatMap fun (b : UInt8) =>
    [digit letters (b >>> 4), digit letters (b &&& 15)]

/- The mark which may stand in front of a numeral. -/
def mark : Text :=
  ascii "0x"

/- A text without the mark in front of it, if it has one. -/
def dropMark (s : Text) : Text :=
  if mark.isPrefixOf s then s.drop mark.length else s

/-
  At least one hexadecimal digit and nothing else, after an
  optional mark.
-/
def isNumeral (s : Text) : Bool :=
  !(dropMark s).isEmpty &&
    (dropMark s).all fun b => (value? b).isSome

end Hex

end ContractLinker
