import ContractLinker.Json.Basic
import ContractLinker.Text.Hex
import ContractLinker.Text.Utf8

/-
  Strict reading of JSON documents. A document is an object
  or an array with nothing but white space around it, in
  front of which a byte-order mark may stand. There are no
  comments, no trailing commas and no repeated keys.
  Integers outside the ranges of 64 bits, and all numbers
  with a fraction or an exponent, are doubles.

  Key definitions include:
    * `Json.readString`
    * `Json.readNumber`
    * `Json.readValue`
    * `Json.parse?`
-/

------------------------------------------------------------
-- White Space And Words
------------------------------------------------------------

namespace ContractLinker

namespace Json

/- White space between the parts of a document. -/
def isSpace (b : UInt8) : Bool :=
  b = 0x20 || b = 0x09 || b = 0x0a || b = 0x0d

/- A text without the white space in front of it. -/
def skipSpace (s : Text) : Text :=
  s.dropWhile isSpace

/- What follows a given byte, if the next part is that byte. -/
def afterByte? (b : UInt8) (s : Text) : Option Text :=
  match skipSpace s with
  | c :: rest => if c = b then some rest else none
  | [] => none

/- What follows a given word at the front of a text. -/
def afterWord? (word s : Text) : Option Text :=
  if word.isPrefixOf s then
    some (s.drop word.length)
  else
    none

------------------------------------------------------------
-- Strings
------------------------------------------------------------

/- The value of four hexadecimal digits. -/
def codeUnit? (a b c d : UInt8) : Option Nat := do
  let a ← Hex.value? a
  let b ← Hex.value? b
  let c ← Hex.value? c
  let d ← Hex.value? d
  some
    (a.toNat * 0x1000 + b.toNat * 0x100 + c.toNat * 0x10 + d.toNat)

/- A code unit which must be the first of two. -/
def isLeading (unit : Nat) : Bool :=
  0xd800 ≤ unit && unit < 0xdc00

/- The code point of two code units, the first one leading. -/
def joinUnits (first second : Nat) : Nat :=
  0x10000 + first % 0x400 * 0x400 + second % 0x400

/- The byte which a letter behind a backslash stands for. -/
def escaped? (b : UInt8) : Option UInt8 :=
  if b = Text.doubleQuote then some b
  else if b = Text.backslash then some b
  else if b = '/'.toUInt8 then some b
  else if b = 'b'.toUInt8 then some 0x08
  else if b = 'f'.toUInt8 then some 0x0c
  else if b = 'n'.toUInt8 then some 0x0a
  else if b = 'r'.toUInt8 then some 0x0d
  else if b = 't'.toUInt8 then some 0x09
  else none

/- Put some bytes in front of a string which has been read. -/
def prepend (bytes : Text) (read : Option (Text × Text)) :
    Option (Text × Text) :=
  read.map fun (s, rest) => (bytes ++ s, rest)

/-
  Read a string behind its opening quote, up to and
  including the closing one. A leading code unit has to be
  followed by the escape of another one.
-/
def readString : Text → Option (Text × Text)
  | [] => none
  | c :: s =>
      if c = Text.doubleQuote then
        some ([], s)
      else if c = Text.backslash then
        match s with
        | [] => none
        | e :: t =>
            if e = 'u'.toUInt8 then
              match t with
              | h₃ :: h₂ :: h₁ :: h₀ :: u =>
                  match codeUnit? h₃ h₂ h₁ h₀ with
                  | none => none
                  | some first =>
                      if isLeading first then
                        match u with
                        | b :: v :: l₃ :: l₂ :: l₁ :: l₀ :: w =>
                            if b = Text.backslash && v = 'u'.toUInt8 then
                              match codeUnit? l₃ l₂ l₁ l₀ with
                              | none => none
                              | some second =>
                                  prepend
                                    (Utf8.encode (joinUnits first second))
                                    (readString w)
                            else
                              none
                        | _ => none
                      else
                        prepend (Utf8.encode first) (readString u)
              | _ => none
            else
              match escaped? e with
              | none => none
              | some b => prepend [b] (readString t)
      else if c < 0x20 then
        none
      else
        prepend [c] (readString s)

------------------------------------------------------------
-- Numbers
------------------------------------------------------------

/- Digits at the front of a text, at least one. -/
def readDigits (s : Text) : Option (Text × Text) :=
  let digits := s.takeWhile Text.isDigit
  if digits.isEmpty then
    none
  else
    some (digits, s.dropWhile Text.isDigit)

/- Digits which are those of a whole number: no needless zero. -/
def readWhole (s : Text) : Option (Text × Text) := do
  let (digits, rest) ← readDigits s
  if 1 < digits.length && digits.head? = some '0'.toUInt8 then
    none
  else
    some (digits, rest)

/- The digits behind a decimal point, none if there is no point. -/
def readFraction : Text → Option (Option Text × Text)
  | c :: s =>
      if c = '.'.toUInt8 then do
        let (digits, rest) ← readDigits s
        some (some digits, rest)
      else
        some (none, c :: s)
  | [] => some (none, [])

/- A sign and the text behind it; a missing sign is positive. -/
def readSign : Text → Bool × Text
  | c :: s =>
      if c = '-'.toUInt8 then (true, s)
      else if c = '+'.toUInt8 then (false, s)
      else (false, c :: s)
  | [] => (false, [])

/- A power of ten, none if there is no exponent. -/
def readExponent : Text → Option (Option Int × Text)
  | c :: s =>
      if c = 'e'.toUInt8 || c = 'E'.toUInt8 then do
        let (negative, t) := readSign s
        let (digits, rest) ← readDigits t
        let size : Int := Decimal.value digits
        some (some (if negative then -size else size), rest)
      else
        some (none, c :: s)
  | [] => some (none, [])

/- Whether an integer fits 64 bits, with or without a sign. -/
def fitsInteger (n : Int) : Bool :=
  Int64.minValue.toInt ≤ n && n < UInt64.size

/- The value of a number from its parts. -/
def numberOf (negative : Bool) (whole : Text)
    (fraction : Option Text) (exponent : Option Int) : Json :=
  let size : Int := Decimal.value whole
  let n := if negative then -size else size
  if fraction.isNone && exponent.isNone && fitsInteger n then
    .int n
  else
    let places := fraction.getD []
    let power := exponent.getD 0 - (places.length : Int)
    .double (.ofDecimal negative (whole ++ places) power)

/- Read a number. -/
def readNumber (s : Text) : Option (Json × Text) := do
  let (negative, unsigned) :=
    if s.head? = some '-'.toUInt8 then (true, s.drop 1) else (false, s)
  let (whole, s) ← readWhole unsigned
  let (fraction, s) ← readFraction s
  let (exponent, s) ← readExponent s
  some (numberOf negative whole fraction exponent, s)

------------------------------------------------------------
-- Values
------------------------------------------------------------

/- The object of some members, unless a key is repeated. -/
def objectOf? (members : List (Text × Json)) : Option Json :=
  (members.foldlM
    (fun (d : Dictionary Json) (m : Text × Json) =>
      if d.contains m.1 then none else some (d.insert m.1 m.2))
    []).map .obj

/- Read the key of a member and the colon behind it. -/
def readKey (s : Text) : Option (Text × Text) := do
  let s ← afterByte? Text.doubleQuote s
  let (key, s) ← readString s
  let s ← afterByte? ':'.toUInt8 s
  some (key, s)

/- Read a value which is no container. -/
def readScalar (s : Text) : Option (Json × Text) :=
  match s with
  | [] => none
  | c :: t =>
      if c = Text.doubleQuote then
        (readString t).map fun (text, rest) => (.str text, rest)
      else if c = '-'.toUInt8 || Text.isDigit c then
        readNumber s
      else
        match afterWord? (ascii "null") s with
        | some rest => some (.null, rest)
        | none =>
            match afterWord? (ascii "true") s with
            | some rest => some (.bool true, rest)
            | none =>
                (afterWord? (ascii "false") s).map fun rest =>
                  (.bool false, rest)

mutual

/-
  Read a value and what follows it. Each call spends a unit
  of fuel; twice the length of the text is enough.
-/
def readValue : Nat → Text → Option (Json × Text)
  | 0, _ => none
  | fuel + 1, s =>
      match skipSpace s with
      | [] => none
      | c :: t =>
          if c = '['.toUInt8 then
            match afterByte? ']'.toUInt8 t with
            | some rest => some (.arr [], rest)
            | none =>
                (readItems fuel t).map fun (items, rest) =>
                  (.arr items, rest)
          else if c = '{'.toUInt8 then
            match afterByte? '}'.toUInt8 t with
            | some rest => some (.obj [], rest)
            | none =>
                (readMembers fuel t).bind fun (members, rest) =>
                  (objectOf? members).map fun j => (j, rest)
          else
            readScalar (c :: t)
termination_by structural fuel => fuel

/- Read the elements of an array up to its closing bracket. -/
def readItems : Nat → Text → Option (List Json × Text)
  | 0, _ => none
  | fuel + 1, s =>
      match readValue fuel s with
      | none => none
      | some (j, s) =>
          match afterByte? ','.toUInt8 s with
          | some s =>
              (readItems fuel s).map fun (js, rest) => (j :: js, rest)
          | none =>
              (afterByte? ']'.toUInt8 s).map fun rest => ([j], rest)
termination_by structural fuel => fuel

/- Read the members of an object up to its closing brace. -/
def readMembers : Nat → Text → Option (List (Text × Json) × Text)
  | 0, _ => none
  | fuel + 1, s =>
      match readKey s with
      | none => none
      | some (key, s) =>
          match readValue fuel s with
          | none => none
          | some (j, s) =>
              match afterByte? ','.toUInt8 s with
              | some s =>
                  (readMembers fuel s).map fun (ms, rest) =>
                    ((key, j) :: ms, rest)
              | none =>
                  (afterByte? '}'.toUInt8 s).map fun rest =>
                    ([(key, j)], rest)
termination_by structural fuel => fuel

end

------------------------------------------------------------
-- Documents
------------------------------------------------------------

/- The value of a document. A byte-order mark is no part of its text. -/
def parse? (s : Text) : Option Json := do
  let text := Utf8.afterMark s
  let (j, rest) ← readValue (2 * text.length + 2) text
  if (j.isObject || j.isArray) && (skipSpace rest).isEmpty then
    some j
  else
    none

end Json

end ContractLinker
