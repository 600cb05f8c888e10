/-
  Byte texts. Every text the linker reads, compares or
  writes is a list of bytes: lengths, offsets and columns
  count bytes, and the order of texts is the lexicographic
  order of their bytes.

  Key definitions include:
    * `Text`
    * `ascii`
    * `Text.isDigit`, `Text.isLetter`, `Text.isBlank`
    * `Text.cutFirst`
    * `Text.cutLast`
    * `Text.splitOn`
    * `Text.trim`
    * `Text.padLeft`
    * `Text.replaceByte`
-/

------------------------------------------------------------
-- Texts
------------------------------------------------------------

namespace ContractLinker

/- A text is a list of bytes. -/
abbrev Text :=
  List UInt8

/- The text spelled by a string of ASCII characters. -/
def ascii (s : String) : Text :=
  s.toList.map Char.toUInt8

namespace Text

------------------------------------------------------------
-- Bytes With Names
------------------------------------------------------------

/- The end of a line. -/
def newline : UInt8 :=
  0x0a

/- The double quote. -/
def doubleQuote : UInt8 :=
  0x22

/- The single quote. -/
def singleQuote : UInt8 :=
  0x27

/- The backslash. -/
def backslash : UInt8 :=
  0x5c

------------------------------------------------------------
-- Byte Classes
------------------------------------------------------------

/- A decimal digit. -/
def isDigit (b : UInt8) : Bool :=
  '0'.toUInt8 ≤ b && b ≤ '9'.toUInt8

/- An ASCII letter of either case. -/
def isLetter (b : UInt8) : Bool :=
  ('a'.toUInt8 ≤ b && b ≤ 'z'.toUInt8) ||
    ('A'.toUInt8 ≤ b && b ≤ 'Z'.toUInt8)

/-
  White space: the space and the five control bytes from
  the tabulator (9) to the carriage return (13).
-/
def isBlank (b : UInt8) : Bool :=
  b = ' '.toUInt8 || (9 ≤ b && b ≤ 13)

------------------------------------------------------------
-- Cutting
------------------------------------------------------------

/-
  Cut a text at the first occurrence of a byte, which
  belongs to neither part.
-/
def cutFirst (b : UInt8) : Text → Option (Text × Text)
  | [] => none
  | c :: s =>
      if c = b then
        some ([], s)
      else
        (cutFirst b s).map fun (front, back) =>
          (c :: front, back)

/-
  Cut a text at the last occurrence of a byte, which
  belongs to neither part.
-/
def cutLast (b : UInt8) : Text → Option (Text × Text)
  | [] => none
  | c :: s =>
      match cutLast b s with
      | some (front, back) => some (c :: front, back)
      | none => if c = b then some ([], s) else none

/- The parts of a text between the occurrences of a byte. -/
def splitOn (b : UInt8) : Text → List Text
  | [] => [[]]
  | c :: s =>
      if c = b then
        [] :: splitOn b s
      else
        match splitOn b s with
        | part :: parts => (c :: part) :: parts
        | [] => [[c]]

/- Drop the white space at both ends. -/
def trim (s : Text) : Text :=
  ((s.dropWhile isBlank).reverse.dropWhile isBlank).reverse

------------------------------------------------------------
-- Padding And Replacement
------------------------------------------------------------

/- Put zeros in front of a text until it has a given width. -/
def padLeft (width : Nat) (s : Text) : Text :=
  List.replicate (width - s.length) '0'.toUInt8 ++ s

/- Write one byte in the place of another. -/
def replaceByte (old new : UInt8) (s : Text) : Text :=
  s.map fun b => if b = old then new else b

end Text

end ContractLinker
