import ContractLinker.Report.Diagnostic

/-
  Locations of syntax tree nodes. A node gives its place as
  the start, the length and the index of the source, written
  in decimal and parted by colons.

  Key definitions include:
    * `AstError`
    * `AstError.message`
    * `SourceLocation.decodeInteger`
    * `SourceLocation.ofSpan`
-/

------------------------------------------------------------
-- Errors
------------------------------------------------------------

namespace ContractLinker

/- What keeps a syntax tree from being analysed. -/
inductive AstError where
  | noLocation (nodeType : Text)
  | invalidLocation (span : Text)
deriving DecidableEq, Repr

namespace AstError

/- What a user is told. -/
def message : AstError → Text
  | .noLocation nodeType =>
      ascii "AST node `" ++ nodeType ++ ascii "` has no location"
  | .invalidLocation span =>
      ascii "Invalid AST node location `" ++ span ++ ascii "`"

end AstError

namespace SourceLocation

------------------------------------------------------------
-- Integers
------------------------------------------------------------

/- The value of some digits in the arithmetic of 64 bits. -/
def digitsValue (digits : Text) : Int64 :=
  digits.foldl
    (fun n b => n * 10 + Int64.ofNat (Decimal.digitValue b)) 0

/-
  An optional minus sign and one to eighteen digits. That
  many digits, and the sum of two such numbers, fit 64 bits.
-/
def decodeInteger (s : Text) : Option Int64 :=
  let negative := s.head? = some '-'.toUInt8
  let digits := if negative then s.drop 1 else s
  if digits.isEmpty || 18 < digits.length ||
      !digits.all Text.isDigit then
    none
  else if negative then
    some (-(digitsValue digits))
  else
    some (digitsValue digits)

------------------------------------------------------------
-- Spans
------------------------------------------------------------

/- The end of a range, or -1 if the range is not a real one. -/
def stopOf (start length : Int64) : Int64 :=
  if start < 0 || length < 0 then -1 else start + length

/- The location which a span denotes, in a file yet unknown. -/
def ofSpan (span : Text) : Except AstError SourceLocation :=
  match (span.splitOn ':'.toUInt8).map decodeInteger with
  | [some start, some length, some _] =>
      .ok { file := [], start, stop := stopOf start length }
  | _ => .error (.invalidLocation span)

end SourceLocation

end ContractLinker
