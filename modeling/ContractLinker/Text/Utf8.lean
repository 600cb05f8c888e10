import ContractLinker.Text.Basic

/-
  Code points as bytes. `Utf8.encode` writes one code point
  and `Utf8.codePoints` reads a whole text. Reading never
  fails: a byte which starts no code point, or starts one
  which the text is too short for, counts as the replacement
  character, and surrogates are read like any other value.
  `Utf8.isValid` tells the texts apart which are sequences
  of encoded code points. `Utf8.afterMark` leaves out the
  mark which a text may begin with.

  Key definitions include:
    * `Utf8.encode`
    * `Utf8.codePoints`
    * `Utf8.isValid`
    * `Utf8.afterMark`
-/

------------------------------------------------------------
-- Writing
------------------------------------------------------------

namespace ContractLinker

namespace Utf8

/- The byte with given marking bits and six bits of a value from a shift on. -/
def unit (marking : UInt8) (n shift : Nat) : UInt8 :=
  marking ||| ((n >>> shift) &&& 0x3f).toUInt8

/-
  The bytes of a code point, as few as hold its bits.
  Surrogates are written like any other value of their size.
-/
def encode (n : Nat) : Text :=
  if n < 0x80 then
    [n.toUInt8]
  else if n < 0x800 then
    [unit 0xc0 n 6, unit 0x80 n 0]
  else if n < 0x10000 then
    [unit 0xe0 n 12, unit 0x80 n 6, unit 0x80 n 0]
  else
    [unit 0xf0 n 18, unit 0x80 n 12, unit 0x80 n 6, unit 0x80 n 0]

------------------------------------------------------------
-- Reading
------------------------------------------------------------

/- The stand-in for bytes which encode no code point. -/
def replacement : Nat :=
  0xfffd

/- The low bits of a byte as a number. -/
def bits (b mask : UInt8) : Nat :=
  (b &&& mask).toNat

/- The value of a pair. -/
def pair (a b : UInt8) : Nat :=
  bits a 0x1f * 0x40 + bits b 0x3f

/- The value of a triple, which may be a surrogate. -/
def triple (a b c : UInt8) : Nat :=
  bits a 0x0f * 0x1000 + bits b 0x3f * 0x40 + bits c 0x3f

/- The value of a quadruple. -/
def quadruple (a b c d : UInt8) : Nat :=
  bits a 0x07 * 0x40000 + bits b 0x3f * 0x1000 +
    bits c 0x3f * 0x40 + bits d 0x3f

/-
  The code point which a lead byte starts and the number of
  bytes it takes from those behind. The lead byte alone
  decides that number; the bytes taken count by their low
  bits, whatever they are. If there are fewer bytes, or the
  lead byte is one which only continues a code point or
  occurs in none, it is replaced on its own.
-/
def read (a : UInt8) (behind : Text) : Nat × Nat :=
  if a < 0x80 then
    (a.toNat, 0)
  else if a < 0xc0 then
    (replacement, 0)
  else if a < 0xe0 then
    match behind with
    | b :: _ => (pair a b, 1)
    | _ => (replacement, 0)
  else if a < 0xf0 then
    match behind with
    | b :: c :: _ => (triple a b c, 2)
    | _ => (replacement, 0)
  else if a < 0xf8 then
    match behind with
    | b :: c :: d :: _ => (quadruple a b c d, 3)
    | _ => (replacement, 0)
  else
    (replacement, 0)

/- The code points of a text after some bytes which are left out. -/
def codePointsAfter : Nat → Text → List Nat
  | _, [] => []
  | skip + 1, _ :: s => codePointsAfter skip s
  | 0, a :: s => (read a s).1 :: codePointsAfter (read a s).2 s

/- The code points of a text. -/
def codePoints (s : Text) : List Nat :=
  codePointsAfter 0 s

------------------------------------------------------------
-- Byte-Order Mark
------------------------------------------------------------

/- The code point which marks the start of a text. -/
def mark : Nat :=
  0xfeff

/- A text without the mark it may begin with. A second mark stays. -/
def afterMark (s : Text) : Text :=
  if (encode mark).isPrefixOf s then
    s.drop (encode mark).length
  else
    s

------------------------------------------------------------
-- Validity
------------------------------------------------------------

/- A byte which continues a code point. -/
def isTail (b : UInt8) : Bool :=
  0x80 ≤ b && b < 0xc0

/- The bytes of one code point of two, three or four bytes. -/
def isPair (a b : UInt8) : Bool :=
  0xc2 ≤ a && a < 0xe0 && isTail b

def isTriple (a b c : UInt8) : Bool :=
  0xe0 ≤ a && a < 0xf0 && isTail b && isTail c &&
    (a != 0xe0 || 0xa0 ≤ b) && (a != 0xed || b < 0xa0)

def isQuadruple (a b c d : UInt8) : Bool :=
  0xf0 ≤ a && a < 0xf5 && isTail b && isTail c && isTail d &&
    (a != 0xf0 || 0x90 ≤ b) && (a != 0xf4 || b < 0x90)

/- A text which is a sequence of encoded code points. -/
def isValid : Text → Bool
  | [] => true
  | a :: s =>
      if a < 0x80 then
        isValid s
      else
        match s with
        | b :: t =>
            if isPair a b then
              isValid t
            else
              match t with
              | c :: u =>
                  if isTriple a b c then
                    isValid u
                  else
                    match u with
                    | d :: v => isQuadruple a b c d && isValid v
                    | [] => false
              | [] => false
        | [] => false

end Utf8

end ContractLinker
