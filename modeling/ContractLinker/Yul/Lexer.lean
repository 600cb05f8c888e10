import ContractLinker.Yul.Token

/-
  Tokens of an input. In front of each token there may be a
  gap of white space and comments. What follows the gap is
  cut into one lexeme, the longest of its class, and the
  rest of the input.

  A gap ends in front of a comment which is never closed,
  which is then a faulty lexeme.

  Key definitions include:
    * `Yul.gap`
    * `Yul.Lexeme`
    * `Yul.lexeme`
    * `Yul.Cursor`
    * `Yul.Cursor.scan`
    * `Yul.TokenStream`
    * `Yul.Lexer`
-/

------------------------------------------------------------
-- Gaps
------------------------------------------------------------

namespace ContractLinker

namespace Yul

/- Put a byte in front of the first part of a cut text. -/
def pushFront (b : UInt8) (parts : Text × Text) : Text × Text :=
  (b :: parts.1, parts.2)

mutual

/- Cut the white space and the comments off an input. -/
def gap : Text → Text × Text
  | [] => ([], [])
  | b :: s =>
      if Text.isBlank b then
        pushFront b (gap s)
      else if b = '/'.toUInt8 then
        match s with
        | [] => ([], [b])
        | c :: t =>
            if c = '/'.toUInt8 then
              pushFront b (pushFront c (lineComment t))
            else if c = '*'.toUInt8 then
              match blockComment false t with
              | some parts => pushFront b (pushFront c parts)
              | none => ([], b :: c :: t)
            else
              ([], b :: c :: t)
      else
        ([], b :: s)
termination_by structural s => s

/- Cut off the rest of a comment to the end of its line, and a gap. -/
def lineComment : Text → Text × Text
  | [] => ([], [])
  | b :: s =>
      if b = Text.newline then
        pushFront b (gap s)
      else
        pushFront b (lineComment s)
termination_by structural s => s

/-
  Cut off the rest of a comment up to its closing mark, and
  a gap. The flag tells that the byte before was a star.
-/
def blockComment (afterStar : Bool) : Text → Option (Text × Text)
  | [] => none
  | b :: s =>
      if afterStar && b = '/'.toUInt8 then
        some (pushFront b (gap s))
      else
        (blockComment (b = '*'.toUInt8) s).map (pushFront b)
termination_by structural s => s

end

------------------------------------------------------------
-- Lexemes
------------------------------------------------------------

/- A byte with which an identifier begins. -/
def isIdentifierStart (b : UInt8) : Bool :=
  Text.isLetter b || b = '_'.toUInt8 || b = '$'.toUInt8

/- A byte with which an identifier goes on. -/
def isIdentifierPart (b : UInt8) : Bool :=
  isIdentifierStart b || Text.isDigit b || b = '.'.toUInt8

/- A byte with which a number goes on. -/
def isNumberPart (b : UInt8) : Bool :=
  Text.isLetter b || Text.isDigit b

/- A byte which opens and closes a literal. -/
def isQuote (b : UInt8) : Bool :=
  b = Text.doubleQuote || b = Text.singleQuote

/- A byte which is a symbol on its own. -/
def isSymbolByte (b : UInt8) : Bool :=
  (ascii "\x7b\x7d(),:").contains b

/-
  The outcome of cutting a lexeme off an input. A faulty one
  has the bytes in front of the place that is to blame and
  all bytes which were looked at.
-/
inductive Lexeme where
  | token (kind : TokenKind) (text span rest : Text)
  | faulty (fault : Fault) (before span rest : Text)
deriving DecidableEq, Repr

/-
  Cut the body of a literal off an input, up to its closing
  quote, the end of its line or the end of the input. The
  byte behind a backslash always belongs to the body.
-/
def literalBody (quote : UInt8) : Text → Text × Text
  | [] => ([], [])
  | b :: s =>
      if b = quote || b = Text.newline then
        ([], b :: s)
      else if b = Text.backslash then
        match s with
        | [] => ([b], [])
        | c :: t => pushFront b (pushFront c (literalBody quote t))
      else
        pushFront b (literalBody quote s)

/- The lexeme of a literal behind a mark and its opening quote. -/
def literal (kind : TokenKind) (mark : Text) (quote : UInt8)
    (s : Text) : Lexeme :=
  match literalBody quote s with
  | (body, b :: rest) =>
      if b = quote then
        .token kind body (mark ++ quote :: (body ++ [quote])) rest
      else
        .faulty .unterminatedString mark (mark ++ quote :: body)
          (b :: rest)
  | (body, []) =>
      .faulty .unterminatedString mark (mark ++ quote :: body) []

/- The lexeme of an identifier, or of a literal with a mark. -/
def word (name rest : Text) : Lexeme :=
  match rest with
  | [] => .token .identifier name name []
  | b :: s =>
      if name = ascii "hex" && isQuote b then
        literal .hexLiteral name b s
      else
        .token .identifier name name (b :: s)

/- The lexeme which begins with a byte. -/
def lexeme (b : UInt8) (s : Text) : Lexeme :=
  if isQuote b then
    literal .stringLiteral [] b s
  else if isIdentifierStart b then
    word (b :: s.takeWhile isIdentifierPart)
      (s.dropWhile isIdentifierPart)
  else if Text.isDigit b then
    let number := b :: s.takeWhile isNumberPart
    .token .number number number (s.dropWhile isNumberPart)
  else if b = ':'.toUInt8 && s.head? = some '='.toUInt8 then
    .token .symbol (ascii ":=") (ascii ":=") (s.drop 1)
  else if b = '-'.toUInt8 && s.head? = some '>'.toUInt8 then
    .token .symbol (ascii "->") (ascii "->") (s.drop 1)
  else if isSymbolByte b then
    .token .symbol [b] [b] s
  else if b = '/'.toUInt8 && s.head? = some '*'.toUInt8 then
    .faulty .unterminatedComment [] (b :: s) []
  else
    .faulty (.unexpectedByte b) [] [] (b :: s)

------------------------------------------------------------
-- Scanning
------------------------------------------------------------

/- A place in the input and what follows it. -/
structure Cursor where
  location : Location
  rest : Text
deriving DecidableEq, Repr

namespace Cursor

/- The cursor in front of an input. -/
def ofText (s : Text) : Cursor where
  location := .start
  rest := s

/-
  The next token, and the cursor behind it. At a fault the
  cursor stands behind the bytes which were looked at.
-/
def scan (c : Cursor) : Except ParseError Token × Cursor :=
  let (blank, rest) := gap c.rest
  let start := c.location.after blank
  match rest with
  | [] =>
      (.ok ⟨.endOfFile, [], start, start.offset⟩, ⟨start, []⟩)
  | b :: s =>
      match lexeme b s with
      | .token kind text span rest =>
          let stop := start.after span
          (.ok ⟨kind, text, start, stop.offset⟩, ⟨stop, rest⟩)
      | .faulty fault before span rest =>
          (.error ⟨start.after before, fault⟩,
            ⟨start.after span, rest⟩)

end Cursor

------------------------------------------------------------
-- Token Streams
------------------------------------------------------------

/-
  All tokens of an input up to its end or its first fault,
  and the token of the end or the fault.
-/
structure TokenStream where
  tokens : List Token
  ending : Except ParseError Token

namespace TokenStream

/- Put a token in front of a stream. -/
def push (t : Token) (stream : TokenStream) : TokenStream :=
  { stream with tokens := t :: stream.tokens }

/-
  The tokens behind a cursor. One unit of fuel is spent on
  each token, and no token is empty, so that the length of
  the input is enough.
-/
def scanAll : Nat → Cursor → TokenStream
  | 0, c => ⟨[], c.scan.1⟩
  | fuel + 1, c =>
      match c.scan with
      | (.error e, _) => ⟨[], .error e⟩
      | (.ok t, behind) =>
          if t.kind = .endOfFile then
            ⟨[], .ok t⟩
          else
            push t (scanAll fuel behind)

/- The tokens of an input. -/
def ofText (s : Text) : TokenStream :=
  scanAll s.length (.ofText s)

/- The first token, which may be the one of the end. -/
def next (stream : TokenStream) : Except ParseError Token :=
  match stream.tokens with
  | t :: _ => .ok t
  | [] => stream.ending

end TokenStream

------------------------------------------------------------
-- Lexers
------------------------------------------------------------

/- A cursor with the token in front of it, if it was asked for. -/
structure Lexer where
  cursor : Cursor
  peeked : Option Token
deriving DecidableEq, Repr

namespace Lexer

/- The lexer in front of an input. -/
def ofText (s : Text) : Lexer where
  cursor := .ofText s
  peeked := none

/- The place up to which the input has been looked at. -/
def location (l : Lexer) : Location :=
  l.cursor.location

/- The next token, which stays the next one. -/
def peek (l : Lexer) : Except ParseError Token × Lexer :=
  match l.peeked with
  | some t => (.ok t, l)
  | none =>
      match l.cursor.scan with
      | (.ok t, c) => (.ok t, { cursor := c, peeked := some t })
      | (.error e, c) => (.error e, { cursor := c, peeked := none })

/- The next token, and the lexer behind it. -/
def next (l : Lexer) : Except ParseError Token × Lexer :=
  match l.peeked with
  | some t => (.ok t, { l with peeked := none })
  | none =>
      let (outcome, c) := l.cursor.scan
      (outcome, { cursor := c, peeked := none })

end Lexer

end Yul

end ContractLinker
