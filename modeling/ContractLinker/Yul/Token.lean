import ContractLinker.Text.Decimal

/-
  Tokens of the object notation, their places in the input,
  and what can be wrong with an input.

  Key definitions include:
    * `Yul.Location`
    * `Yul.Location.after`
    * `Yul.Token`
    * `Yul.Expectation`
    * `Yul.ParseError`
    * `Yul.ParseError.message`
-/

------------------------------------------------------------
-- Locations
------------------------------------------------------------

namespace ContractLinker

namespace Yul

/- A place in the input. Lines and columns count from one. -/
structure Location where
  line : Nat
  column : Nat
  offset : Nat
deriving DecidableEq, Repr

namespace Location

/- The place of the first byte. -/
def start : Location where
  line := 1
  column := 1
  offset := 0

/- The place behind a byte. -/
def advance (l : Location) (b : UInt8) : Location :=
  if b = Text.newline then
    { line := l.line + 1, column := 1, offset := l.offset + 1 }
  else
    { l with column := l.column + 1, offset := l.offset + 1 }

/- The place behind some bytes. -/
def after (l : Location) (s : Text) : Location :=
  s.foldl advance l

end Location

------------------------------------------------------------
-- Tokens
------------------------------------------------------------

/- The kinds of tokens. -/
inductive TokenKind where
  | identifier
  | stringLiteral
  | hexLiteral
  | number
  | symbol
  | endOfFile
deriving DecidableEq, Repr

/-
  A token with its text, its place and the offset behind it.
  The text of a literal is what stands between its quotes.
-/
structure Token where
  kind : TokenKind
  text : Text
  location : Location
  stop : Nat
deriving DecidableEq, Repr

namespace Token

/- Whether a token is the symbol of a given text. -/
def isSymbol (t : Token) (text : Text) : Bool :=
  t.kind = .symbol && t.text = text

/- Whether a token is the word of a given text. -/
def isKeyword (t : Token) (text : Text) : Bool :=
  t.kind = .identifier && t.text = text

/- The opening brace. -/
def isOpen (t : Token) : Bool :=
  t.isSymbol ['{'.toUInt8]

/- The closing brace. -/
def isClose (t : Token) : Bool :=
  t.isSymbol ['}'.toUInt8]

end Token

------------------------------------------------------------
-- Errors
------------------------------------------------------------

/- What could have stood in the place of a refused token. -/
inductive Expectation where
  | objectKeyword
  | objectName
  | openBrace
  | codeKeyword
  | item
  | dataName
  | dataLiteral
  | endOfInput
deriving DecidableEq, Repr

/- The wording of an expectation. -/
def Expectation.text : Expectation → Text
  | .objectKeyword => ascii "`object`"
  | .objectName => ascii "object name"
  | .openBrace => ascii "`\x7b`"
  | .codeKeyword => ascii "`code`"
  | .item => ascii "`object`, `data` or `\x7d`"
  | .dataName => ascii "data name"
  | .dataLiteral => ascii "data literal"
  | .endOfInput => ascii "end of input"

/- What is wrong with an input. -/
inductive Fault where
  | unterminatedComment
  | unterminatedString
  | unexpectedByte (b : UInt8)
  | expected (what : Expectation) (found : Text)
  | unterminatedCode
  | runtimeOfRuntime (name : Text)
  | duplicateRuntime (name : Text)
deriving DecidableEq, Repr

/- The wording of a fault. -/
def Fault.text : Fault → Text
  | .unterminatedComment => ascii "Unterminated comment"
  | .unterminatedString => ascii "Unterminated string literal"
  | .unexpectedByte b =>
      ascii "Unexpected character '" ++ b :: ascii "'"
  | .expected what found =>
      ascii "Expected " ++ what.text ++ ascii ", found `" ++
        found ++ ascii "`"
  | .unterminatedCode => ascii "Unterminated code block"
  | .runtimeOfRuntime name =>
      ascii "Runtime object `" ++ name ++
        ascii "` cannot have a runtime object"
  | .duplicateRuntime name =>
      ascii "Duplicate runtime object `" ++ name ++ ascii "`"

/- A fault and its place. -/
structure ParseError where
  location : Location
  fault : Fault
deriving DecidableEq, Repr

namespace ParseError

/- What a user is told: the place comes first. -/
def message (e : ParseError) : Text :=
  Decimal.ofNat e.location.line ++ ':'.toUInt8 ::
    (Decimal.ofNat e.location.column ++ ascii ": " ++ e.fault.text)

end ParseError

end Yul

end ContractLinker
