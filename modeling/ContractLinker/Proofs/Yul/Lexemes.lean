import ContractLinker.Proofs.Text.Utf8
import ContractLinker.Proofs.Yul.Gaps

/-
  The spans of tokens and of faults. The span of a token
  belongs to its kind, gives its text, and cannot be made
  longer; both are said by the bytes of the span and what
  stands behind it. Where no separator begins, an input
  begins with such a span or with one of the faults, and
  cutting a lexeme off finds just that.

  Key definitions include:
    * `Yul.LiteralText`
    * `Yul.TokenSpan`
    * `Yul.FaultySpan`

  Main statements:
    * `Yul.beginsSpan_of_beginsToken`
    * `Yul.lexeme_of_tokenSpan`
    * `Yul.lexeme_of_faultySpan`
-/

------------------------------------------------------------
-- Literals
------------------------------------------------------------

namespace ContractLinker

namespace Yul

/-
  What may stand between two quotes: behind a backslash any
  byte, elsewhere any byte but the quote and a line break.
-/
inductive LiteralText (quote : UInt8) : Text → Prop where
  | nil :
      LiteralText quote []
  | plain {b : UInt8} {s : Text}
      (hQuote : b ≠ quote)
      (hNewline : b ≠ Text.newline)
      (hBackslash : b ≠ Text.backslash)
      (hText : LiteralText quote s) :
      LiteralText quote (b :: s)
  | escape {s : Text}
      (b : UInt8)
      (hText : LiteralText quote s) :
      LiteralText quote (Text.backslash :: b :: s)

/-
  What stands behind a quote which is not closed, up to the
  end of its line or of the input. The last byte of an input
  may be a backslash with nothing to escape.
-/
inductive UnclosedText (quote : UInt8) : Text → Text → Prop where
  | line {s rest : Text}
      (hText : LiteralText quote s)
      (hEnd : ∀ b ∈ rest.head?, b = Text.newline) :
      UnclosedText quote s rest
  | backslash {s : Text}
      (hText : LiteralText quote s) :
      UnclosedText quote (s ++ [Text.backslash]) []

------------------------------------------------------------
-- Spans
------------------------------------------------------------

/- The mark in front of a literal in hexadecimal. -/
def hexMark : Text :=
  ascii "hex"

/- The two symbols of two bytes. -/
def assignSymbol : Text :=
  [':'.toUInt8, '='.toUInt8]

def arrowSymbol : Text :=
  ['-'.toUInt8, '>'.toUInt8]

/-
  The span of a token with a kind and a text, in front of a
  rest. A word, a number and a symbol are their own text and
  do not go on in the rest; the text of a literal is what
  stands between its quotes.
-/
inductive TokenSpan : TokenKind → Text → Text → Text → Prop where
  | identifier {b : UInt8} {s rest : Text}
      (hStart : isIdentifierStart b = true)
      (hParts : ∀ c ∈ s, isIdentifierPart c = true)
      (hEnd : ∀ c ∈ rest.head?, isIdentifierPart c = false)
      (hWord : b :: s = hexMark →
        ∀ c ∈ rest.head?, isQuote c = false) :
      TokenSpan .identifier (b :: s) (b :: s) rest
  | number {b : UInt8} {s rest : Text}
      (hStart : Text.isDigit b = true)
      (hParts : ∀ c ∈ s, isNumberPart c = true)
      (hEnd : ∀ c ∈ rest.head?, isNumberPart c = false) :
      TokenSpan .number (b :: s) (b :: s) rest
  | assign (rest : Text) :
      TokenSpan .symbol assignSymbol assignSymbol rest
  | arrow (rest : Text) :
      TokenSpan .symbol arrowSymbol arrowSymbol rest
  | symbol {b : UInt8} {rest : Text}
      (hSymbol : isSymbolByte b = true)
      (hAssign : b = ':'.toUInt8 → rest.head? ≠ some '='.toUInt8) :
      TokenSpan .symbol [b] [b] rest
  | string {quote : UInt8} {text : Text}
      (hQuote : isQuote quote = true)
      (hText : LiteralText quote text)
      (rest : Text) :
      TokenSpan .stringLiteral text
        (quote :: (text ++ [quote])) rest
  | hex {quote : UInt8} {text : Text}
      (hQuote : isQuote quote = true)
      (hText : LiteralText quote text)
      (rest : Text) :
      TokenSpan .hexLiteral text
        (hexMark ++ quote :: (text ++ [quote])) rest

/- The kind of a token which has a span is not the end. -/
theorem TokenSpan.kind_ne
    {kind : TokenKind}
    {text span rest : Text}
    (hSpan : TokenSpan kind text span rest) :
    kind ≠ .endOfFile := by
  cases hSpan <;> simp

theorem TokenSpan.length_pos
    {kind : TokenKind}
    {text span rest : Text}
    (hSpan : TokenSpan kind text span rest) :
    0 < span.length := by
  rw [List.length_pos_iff]
  cases hSpan <;> simp [assignSymbol, arrowSymbol]

/- A byte, with what stands behind it, that begins nothing. -/
structure StrayByte (b : UInt8) (rest : Text) : Prop where
  blank : Text.isBlank b = false
  quote : isQuote b = false
  word : isIdentifierStart b = false
  number : Text.isDigit b = false
  symbol : isSymbolByte b = false
  arrow : b = '-'.toUInt8 → rest.head? ≠ some '>'.toUInt8
  comment : b = '/'.toUInt8 →
    ∀ c ∈ rest.head?, c ≠ '/'.toUInt8 ∧ c ≠ '*'.toUInt8

/-
  A fault, with the bytes in front of the place to blame and
  those behind it.
-/
inductive FaultySpan : Fault → Text → Text → Prop where
  | comment {body : Text}
      (hOpen : ¬ closeMark <:+: body) :
      FaultySpan .unterminatedComment [] (openMark ++ body)
  | string {mark body rest : Text} {quote : UInt8}
      (hMark : mark = [] ∨ mark = hexMark)
      (hQuote : isQuote quote = true)
      (hBody : UnclosedText quote body rest) :
      FaultySpan .unterminatedString mark
        (quote :: (body ++ rest))
  | byte {b : UInt8} {rest : Text}
      (hStray : StrayByte b rest) :
      FaultySpan (.unexpectedByte b) [] (b :: rest)

------------------------------------------------------------
-- Classes Of Bytes
------------------------------------------------------------

/- No byte belongs to two classes which tell lexemes apart. -/
theorem classes_disjoint :
    ∀ b : UInt8,
      (isQuote b = true →
        Text.isBlank b = false ∧ b ≠ '/'.toUInt8 ∧
          b ≠ Text.backslash ∧ b ≠ Text.newline ∧
          isIdentifierPart b = false) ∧
      (isIdentifierStart b = true →
        Text.isBlank b = false ∧ b ≠ '/'.toUInt8 ∧
          isQuote b = false) ∧
      (Text.isDigit b = true →
        Text.isBlank b = false ∧ b ≠ '/'.toUInt8 ∧
          isQuote b = false ∧ isIdentifierStart b = false) ∧
      (isSymbolByte b = true →
        Text.isBlank b = false ∧ b ≠ '/'.toUInt8 ∧
          b ≠ '-'.toUInt8 ∧ isQuote b = false ∧
          isIdentifierStart b = false ∧ Text.isDigit b = false) := by
  apply Utf8.forall_byte
  decide +kernel

------------------------------------------------------------
-- Longest Runs
------------------------------------------------------------

/- A run of a class in front of a byte of another one. -/
theorem takeWhile_run
    {p : UInt8 → Bool}
    {s rest : Text}
    (hRun : ∀ b ∈ s, p b = true)
    (hEnd : ∀ b ∈ rest.head?, p b = false) :
    (s ++ rest).takeWhile p = s ∧ (s ++ rest).dropWhile p = rest := by
  rw [List.takeWhile_append_of_pos hRun,
    List.dropWhile_append_of_pos hRun]
  cases rest with
  | nil => simp
  | cons b t => simp [hEnd b rfl]

/- Every text begins with such a run. -/
theorem exists_run
    (p : UInt8 → Bool)
    (s : Text) :
    ∃ run rest, s = run ++ rest ∧ (∀ b ∈ run, p b = true) ∧
      ∀ b ∈ rest.head?, p b = false := by
  refine ⟨s.takeWhile p, s.dropWhile p, ?_, ?_, ?_⟩
  · exact List.takeWhile_append_dropWhile.symm
  · exact List.all_eq_true.mp List.all_takeWhile
  · intro b hHead
    have hNot := List.head?_dropWhile_not p s
    rw [Option.mem_def.mp hHead] at hNot
    simpa using hNot

------------------------------------------------------------
-- Bodies Of Literals
------------------------------------------------------------

variable {quote : UInt8}

theorem literalBody_plain
    {b : UInt8}
    (hQuote : b ≠ quote)
    (hNewline : b ≠ Text.newline)
    (hBackslash : b ≠ Text.backslash)
    (s : Text) :
    literalBody quote (b :: s) = pushFront b (literalBody quote s) := by
  rw [literalBody.eq_def]
  simp [hQuote, hNewline, hBackslash]

theorem backslash_stops
    (hQuote : isQuote quote = true) :
    ¬ (Text.backslash = quote ∨ Text.backslash = Text.newline) := by
  rintro (hEq | hEq)
  · exact ((classes_disjoint quote).1 hQuote).2.2.1 hEq.symm
  · exact absurd hEq (by decide)

theorem literalBody_escape
    (hQuote : isQuote quote = true)
    (b : UInt8)
    (s : Text) :
    literalBody quote (Text.backslash :: b :: s) =
      pushFront Text.backslash (pushFront b (literalBody quote s)) := by
  rw [literalBody.eq_def]
  simp [backslash_stops hQuote]

theorem literalBody_backslash
    (hQuote : isQuote quote = true) :
    literalBody quote [Text.backslash] = ([Text.backslash], []) := by
  rw [literalBody.eq_def]
  simp [backslash_stops hQuote]

/- The body of a literal ends at the first byte to end it. -/
theorem literalBody_append
    (hQuote : isQuote quote = true)
    {s : Text}
    (hText : LiteralText quote s)
    (rest : Text) :
    literalBody quote (s ++ rest) =
      (s ++ (literalBody quote rest).1, (literalBody quote rest).2) := by
  induction hText with
  | nil =>
      rfl
  | plain hOther hNewline hBackslash _ ih =>
      rw [List.cons_append,
        literalBody_plain hOther hNewline hBackslash, ih]
      rfl
  | escape b _ ih =>
      rw [List.cons_append, List.cons_append,
        literalBody_escape hQuote, ih]
      rfl

theorem literalBody_stop
    {rest : Text}
    (hStop : ∀ b ∈ rest.head?, b = quote ∨ b = Text.newline) :
    literalBody quote rest = ([], rest) := by
  cases rest with
  | nil =>
      rfl
  | cons b s =>
      rw [literalBody.eq_def]
      simp [hStop b rfl]

theorem literalBody_of_unclosed
    (hQuote : isQuote quote = true)
    {s rest : Text}
    (hText : UnclosedText quote s rest) :
    literalBody quote (s ++ rest) = (s, rest) := by
  cases hText with
  | line hText hEnd =>
      have hStop :
          ∀ b ∈ rest.head?, b = quote ∨ b = Text.newline :=
        fun b hHead => Or.inr (hEnd b hHead)
      rw [literalBody_append hQuote hText, literalBody_stop hStop,
        List.append_nil]
  | backslash hText =>
      rw [List.append_nil, literalBody_append hQuote hText,
        literalBody_backslash hQuote]

theorem UnclosedText.plain
    {b : UInt8}
    {s rest : Text}
    (hQuote : b ≠ quote)
    (hNewline : b ≠ Text.newline)
    (hBackslash : b ≠ Text.backslash)
    (hText : UnclosedText quote s rest) :
    UnclosedText quote (b :: s) rest := by
  cases hText with
  | line hInner hEnd =>
      exact .line (.plain hQuote hNewline hBackslash hInner) hEnd
  | backslash hInner =>
      exact .backslash (.plain hQuote hNewline hBackslash hInner)

theorem UnclosedText.escape
    {s rest : Text}
    (b : UInt8)
    (hText : UnclosedText quote s rest) :
    UnclosedText quote (Text.backslash :: b :: s) rest := by
  cases hText with
  | line hInner hEnd => exact .line (.escape b hInner) hEnd
  | backslash hInner => exact .backslash (.escape b hInner)

/- Behind a quote there is a literal or an unclosed text. -/
theorem literal_cases
    (quote : UInt8)
    (s : Text) :
    (∃ text rest, s = text ++ quote :: rest ∧
      LiteralText quote text) ∨
      ∃ text rest, s = text ++ rest ∧ UnclosedText quote text rest := by
  -- An escape takes two bytes, hence no induction on the list.
  induction hLength : s.length using Nat.strongRecOn generalizing s with
  | ind n ih =>
      cases s with
      | nil =>
          exact Or.inr ⟨[], [], rfl, .line .nil (by simp)⟩
      | cons b s =>
          simp only [List.length_cons] at hLength
          by_cases hClose : b = quote
          · exact Or.inl ⟨[], s, by rw [hClose]; rfl, .nil⟩
          by_cases hNewline : b = Text.newline
          · refine Or.inr ⟨[], b :: s, rfl, .line .nil ?_⟩
            intro c hHead
            cases hHead
            exact hNewline
          by_cases hBackslash : b = Text.backslash
          · subst hBackslash
            cases s with
            | nil =>
                exact Or.inr
                  ⟨[Text.backslash], [], rfl, .backslash .nil⟩
            | cons c t =>
                simp only [List.length_cons] at hLength
                rcases ih t.length (by omega) t rfl with
                  ⟨text, rest, rfl, hText⟩ | ⟨text, rest, rfl, hText⟩
                · exact Or.inl
                    ⟨_ :: c :: text, rest, rfl, .escape c hText⟩
                · exact Or.inr
                    ⟨_ :: c :: text, rest, rfl, .escape c hText⟩
          · rcases ih s.length (by omega) s rfl with
              ⟨text, rest, rfl, hText⟩ | ⟨text, rest, rfl, hText⟩
            · exact Or.inl
                ⟨b :: text, rest, rfl,
                  .plain hClose hNewline hBackslash hText⟩
            · exact Or.inr
                ⟨b :: text, rest, rfl,
                  .plain hClose hNewline hBackslash hText⟩

------------------------------------------------------------
-- Literals As Lexemes
------------------------------------------------------------

theorem literal_of_closed
    (hQuote : isQuote quote = true)
    {text : Text}
    (hText : LiteralText quote text)
    (kind : TokenKind)
    (mark rest : Text) :
    literal kind mark quote (text ++ quote :: rest) =
      .token kind text (mark ++ quote :: (text ++ [quote])) rest := by
  have hStop :
      literalBody quote (quote :: rest) = ([], quote :: rest) := by
    apply literalBody_stop
    intro b hHead
    cases hHead
    exact Or.inl rfl
  have hBody :
      literalBody quote (text ++ quote :: rest) =
        (text, quote :: rest) := by
    rw [literalBody_append hQuote hText, hStop, List.append_nil]
  unfold literal
  rw [hBody]
  exact if_pos rfl

theorem literal_of_unclosed
    (hQuote : isQuote quote = true)
    {text rest : Text}
    (hText : UnclosedText quote text rest)
    (kind : TokenKind)
    (mark : Text) :
    literal kind mark quote (text ++ rest) =
      .faulty .unterminatedString mark (mark ++ quote :: text)
        rest := by
  unfold literal
  rw [literalBody_of_unclosed hQuote hText]
  cases hText with
  | line _ hEnd =>
      cases rest with
      | nil =>
          rfl
      | cons b s =>
          have hBreak := hEnd b rfl
          subst hBreak
          have hOther : Text.newline ≠ quote :=
            Ne.symm ((classes_disjoint quote).1 hQuote).2.2.2.1
          exact if_neg hOther
  | backslash _ =>
      rfl

------------------------------------------------------------
-- Where Tokens Begin
------------------------------------------------------------

theorem beginsToken_cons_iff
    {b : UInt8}
    {s : Text} :
    BeginsToken (b :: s) ↔
      Text.isBlank b = false ∧
        (∀ t, b :: s ≠ lineMark ++ t) ∧
        ∀ t, b :: s = openMark ++ t → ¬ closeMark <:+: t := by
  constructor
  · intro hBegins
    refine ⟨?_, ?_, ?_⟩
    · rw [← Bool.not_eq_true]
      intro hBlank
      exact hBegins [b] s rfl (.blank hBlank s)
    · intro t hLine
      rcases exists_line t with ⟨body, rest, rfl, hBody, hEnd⟩
      rw [← List.append_assoc] at hLine
      exact hBegins _ rest hLine (.line hBody hEnd)
    · intro t hBlock hClosed
      rcases exists_first_closeMark hClosed with
        ⟨body, rest, rfl, hFirst⟩
      apply hBegins (openMark ++ (body ++ closeMark)) rest
      · rw [hBlock]
        simp only [List.append_assoc]
      · exact .block hFirst rest
  · rintro ⟨hBlank, hLine, hBlock⟩ piece rest hWhole hPiece
    cases hPiece with
    | blank hOther =>
        cases hWhole
        rw [hBlank] at hOther
        cases hOther
    | @line body _ hBody hEnd =>
        exact hLine _ (hWhole.trans (List.append_assoc _ _ _))
    | @block body hFirst =>
        apply hBlock (body ++ closeMark ++ rest)
        · rw [hWhole, List.append_assoc]
        · exact ⟨body, rest, rfl⟩

theorem beginsToken_of_first
    {b : UInt8}
    (hBlank : Text.isBlank b = false)
    (hSlash : b ≠ '/'.toUInt8)
    (s : Text) :
    BeginsToken (b :: s) := by
  rw [beginsToken_cons_iff]
  refine ⟨hBlank, ?_, ?_⟩
  · intro t hLine
    exact hSlash (List.cons.inj hLine).1
  · intro t hBlock
    exact absurd (List.cons.inj hBlock).1 hSlash

/- What a span of a token begins with. -/
theorem beginsToken_of_tokenSpan
    {kind : TokenKind}
    {text span rest : Text}
    (hSpan : TokenSpan kind text span rest) :
    BeginsToken (span ++ rest) := by
  cases hSpan with
  | @identifier b s _ hStart _ _ _ =>
      have hClass := (classes_disjoint b).2.1 hStart
      exact beginsToken_of_first hClass.1 hClass.2.1 _
  | @number b s _ hStart _ _ =>
      have hClass := (classes_disjoint b).2.2.1 hStart
      exact beginsToken_of_first hClass.1 hClass.2.1 _
  | assign =>
      exact beginsToken_of_first (by decide) (by decide) _
  | arrow =>
      exact beginsToken_of_first (by decide) (by decide) _
  | @symbol b _ hSymbol _ =>
      have hClass := (classes_disjoint b).2.2.2 hSymbol
      exact beginsToken_of_first hClass.1 hClass.2.1 _
  | @string quote _ hQuote _ =>
      have hClass := (classes_disjoint quote).1 hQuote
      exact beginsToken_of_first hClass.1 hClass.2.1 _
  | hex hQuote hText =>
      have hFirst : hexMark = 'h'.toUInt8 :: ascii "ex" := rfl
      rw [hFirst]
      exact beginsToken_of_first (by decide) (by decide) _

theorem beginsToken_of_faultySpan
    {fault : Fault}
    {before rest : Text}
    (hSpan : FaultySpan fault before rest) :
    BeginsToken (before ++ rest) := by
  cases hSpan with
  | @comment body hOpen =>
      change BeginsToken ('/'.toUInt8 :: '*'.toUInt8 :: body)
      rw [beginsToken_cons_iff]
      refine ⟨by decide, ?_, ?_⟩
      · intro t hLine
        have hSecond := (List.cons.inj hLine).2
        exact star_ne_slash (List.cons.inj hSecond).1
      · intro t hBlock
        have hSecond := (List.cons.inj hBlock).2
        have hBody : body = t := (List.cons.inj hSecond).2
        rw [← hBody]
        exact hOpen
  | @string mark body _ quote hMark hQuote _ =>
      rcases hMark with rfl | rfl
      · have hClass := (classes_disjoint quote).1 hQuote
        exact beginsToken_of_first hClass.1 hClass.2.1 _
      · have hFirst : hexMark = 'h'.toUInt8 :: ascii "ex" := rfl
        rw [hFirst]
        exact beginsToken_of_first (by decide) (by decide) _
  | @byte b rest hStray =>
      change BeginsToken (b :: rest)
      rw [← gap_eq_nil_iff]
      exact gap_of_other hStray.blank hStray.comment

------------------------------------------------------------
-- Every Input Has A Span
------------------------------------------------------------

/- An input which begins with the span of a token or a fault. -/
def BeginsSpan (s : Text) : Prop :=
  (∃ kind text span rest, s = span ++ rest ∧
    TokenSpan kind text span rest) ∨
    ∃ fault before rest, s = before ++ rest ∧
      FaultySpan fault before rest

theorem beginsSpan_quote
    {mark : Text}
    (hMark : mark = [] ∨ mark = hexMark)
    (hQuote : isQuote quote = true)
    (s : Text) :
    BeginsSpan (mark ++ quote :: s) := by
  rcases literal_cases quote s with
    ⟨text, rest, rfl, hText⟩ | ⟨text, rest, rfl, hText⟩
  · have hWhole :
        mark ++ quote :: (text ++ quote :: rest) =
          (mark ++ quote :: (text ++ [quote])) ++ rest := by
      simp only [List.cons_append, List.append_assoc,
        List.nil_append]
    rcases hMark with rfl | rfl
    · exact Or.inl
        ⟨_, text, _, rest, hWhole, .string hQuote hText rest⟩
    · exact Or.inl ⟨_, text, _, rest, hWhole, .hex hQuote hText rest⟩
  · exact Or.inr ⟨_, mark, _, rfl, .string hMark hQuote hText⟩

theorem beginsSpan_word
    {b : UInt8}
    (hStart : isIdentifierStart b = true)
    (s : Text) :
    BeginsSpan (b :: s) := by
  rcases exists_run isIdentifierPart s with
    ⟨parts, rest, rfl, hParts, hEnd⟩
  by_cases hHex :
      b :: parts = hexMark ∧ ∃ c ∈ rest.head?, isQuote c = true
  · rcases hHex with ⟨hMark, quote, hHead, hOpen⟩
    rcases List.head?_eq_some_iff.mp hHead with ⟨t, rfl⟩
    rw [← List.cons_append, hMark]
    exact beginsSpan_quote (Or.inr rfl) hOpen t
  · refine Or.inl
      ⟨_, b :: parts, b :: parts, rest, rfl,
        .identifier hStart hParts hEnd ?_⟩
    intro hMark c hHead
    rw [← Bool.not_eq_true]
    intro hOpen
    exact hHex ⟨hMark, c, hHead, hOpen⟩

theorem beginsSpan_number
    {b : UInt8}
    (hStart : Text.isDigit b = true)
    (s : Text) :
    BeginsSpan (b :: s) := by
  rcases exists_run isNumberPart s with
    ⟨parts, rest, rfl, hParts, hEnd⟩
  exact Or.inl
    ⟨_, b :: parts, b :: parts, rest, rfl,
      .number hStart hParts hEnd⟩

theorem beginsSpan_symbol
    {b : UInt8}
    (hSymbol : isSymbolByte b = true)
    (s : Text) :
    BeginsSpan (b :: s) := by
  by_cases hAssign : b = ':'.toUInt8 ∧ s.head? = some '='.toUInt8
  · rcases hAssign with ⟨rfl, hHead⟩
    rcases List.head?_eq_some_iff.mp hHead with ⟨t, rfl⟩
    exact Or.inl ⟨_, assignSymbol, assignSymbol, t, rfl, .assign t⟩
  · refine Or.inl ⟨_, [b], [b], s, rfl, .symbol hSymbol ?_⟩
    intro hColon hHead
    exact hAssign ⟨hColon, hHead⟩

/- Where no separator begins, a token or a fault does. -/
theorem beginsSpan_of_beginsToken
    {b : UInt8}
    {s : Text}
    (hBegins : BeginsToken (b :: s)) :
    BeginsSpan (b :: s) := by
  rcases beginsToken_cons_iff.mp hBegins with ⟨hBlank, hLine, hBlock⟩
  by_cases hQuote : isQuote b = true
  · exact beginsSpan_quote (Or.inl rfl) hQuote s
  by_cases hWord : isIdentifierStart b = true
  · exact beginsSpan_word hWord s
  by_cases hDigit : Text.isDigit b = true
  · exact beginsSpan_number hDigit s
  by_cases hSymbol : isSymbolByte b = true
  · exact beginsSpan_symbol hSymbol s
  by_cases hArrow : b = '-'.toUInt8 ∧ s.head? = some '>'.toUInt8
  · rcases hArrow with ⟨rfl, hHead⟩
    rcases List.head?_eq_some_iff.mp hHead with ⟨t, rfl⟩
    exact Or.inl ⟨_, arrowSymbol, arrowSymbol, t, rfl, .arrow t⟩
  rcases mark_cases b s with ⟨t, hMark⟩ | ⟨t, hMark⟩ | hOther
  · exact absurd hMark (hLine t)
  · rw [hMark]
    exact Or.inr ⟨_, [], _, rfl, .comment (hBlock t hMark)⟩
  · simp only [Bool.not_eq_true] at hQuote hWord hDigit hSymbol
    refine Or.inr ⟨_, [], b :: s, rfl, .byte ?_⟩
    exact ⟨hBlank, hQuote, hWord, hDigit, hSymbol,
      fun hMinus hHead => hArrow ⟨hMinus, hHead⟩, hOther⟩

------------------------------------------------------------
-- Lexemes
------------------------------------------------------------

theorem lexeme_quote
    (hQuote : isQuote quote = true)
    (s : Text) :
    lexeme quote s = literal .stringLiteral [] quote s := by
  simp [lexeme, hQuote]

theorem lexeme_word
    {b : UInt8}
    (hStart : isIdentifierStart b = true)
    {parts rest : Text}
    (hParts : ∀ c ∈ parts, isIdentifierPart c = true)
    (hEnd : ∀ c ∈ rest.head?, isIdentifierPart c = false) :
    lexeme b (parts ++ rest) = word (b :: parts) rest := by
  have hQuote := ((classes_disjoint b).2.1 hStart).2.2
  have hRun := takeWhile_run hParts hEnd
  unfold lexeme
  rw [hRun.1, hRun.2, hQuote, hStart]
  rfl

/- The mark of a literal in hexadecimal is a word of its own. -/
theorem lexeme_hexMark
    (hQuote : isQuote quote = true)
    (s : Text) :
    lexeme 'h'.toUInt8 (ascii "ex" ++ quote :: s) =
      literal .hexLiteral hexMark quote s := by
  have hStart : isIdentifierStart 'h'.toUInt8 = true := by
    decide
  have hParts : ∀ c ∈ ascii "ex", isIdentifierPart c = true := by
    rw [← List.all_eq_true]
    decide
  have hEnd :
      ∀ c ∈ (quote :: s).head?, isIdentifierPart c = false := by
    intro c hHead
    cases hHead
    exact ((classes_disjoint quote).1 hQuote).2.2.2.2
  have hMark : 'h'.toUInt8 :: ascii "ex" = ascii "hex" := rfl
  rw [lexeme_word hStart hParts hEnd, hMark]
  simp [word, hQuote, hexMark]

theorem lexeme_number
    {b : UInt8}
    (hStart : Text.isDigit b = true)
    {parts rest : Text}
    (hParts : ∀ c ∈ parts, isNumberPart c = true)
    (hEnd : ∀ c ∈ rest.head?, isNumberPart c = false) :
    lexeme b (parts ++ rest) =
      .token .number (b :: parts) (b :: parts) rest := by
  have hClass := ((classes_disjoint b).2.2.1 hStart).2.2
  have hRun := takeWhile_run hParts hEnd
  unfold lexeme
  rw [hRun.1, hRun.2, hClass.1, hClass.2, hStart]
  rfl

theorem lexeme_symbol
    {b : UInt8}
    (hSymbol : isSymbolByte b = true)
    {s : Text}
    (hAssign : b = ':'.toUInt8 → s.head? ≠ some '='.toUInt8) :
    lexeme b s = .token .symbol [b] [b] s := by
  have hClass := (classes_disjoint b).2.2.2 hSymbol
  unfold lexeme
  simp only [hClass, hSymbol, Bool.false_eq_true, if_false,
    Bool.and_eq_true, decide_eq_true_eq, false_and, if_true]
  by_cases hColon : b = ':'.toUInt8
  · simp [hAssign hColon]
  · simp [hColon]

/- The lexeme of an input is the token whose span it begins with. -/
theorem lexeme_of_tokenSpan
    {kind : TokenKind}
    {text span rest : Text}
    (hSpan : TokenSpan kind text span rest) :
    ∃ b s, span ++ rest = b :: s ∧
      lexeme b s = .token kind text span rest := by
  cases hSpan with
  | @identifier b parts _ hStart hParts hEnd hWord =>
      refine ⟨b, parts ++ rest, rfl, ?_⟩
      rw [lexeme_word hStart hParts hEnd]
      cases rest with
      | nil =>
          rfl
      | cons c t =>
          have hName :
              ¬ (b :: parts = ascii "hex" ∧ isQuote c = true) := by
            rintro ⟨hMark, hQuote⟩
            rw [hWord hMark c rfl] at hQuote
            cases hQuote
          simp [word, hName]
  | @number b parts _ hStart hParts hEnd =>
      exact ⟨b, parts ++ rest, rfl, lexeme_number hStart hParts hEnd⟩
  | assign =>
      exact ⟨_, _, rfl, rfl⟩
  | arrow =>
      exact ⟨_, _, rfl, rfl⟩
  | @symbol b _ hSymbol hAssign =>
      exact ⟨b, rest, rfl, lexeme_symbol hSymbol hAssign⟩
  | @string quote _ hQuote hText =>
      refine ⟨quote, text ++ quote :: rest, ?_, ?_⟩
      · simp only [List.cons_append, List.append_assoc,
          List.nil_append]
      · rw [lexeme_quote hQuote, literal_of_closed hQuote hText]
        rfl
  | @hex quote _ hQuote hText =>
      refine ⟨'h'.toUInt8,
        ascii "ex" ++ quote :: (text ++ quote :: rest), ?_, ?_⟩
      · have hMark : hexMark = 'h'.toUInt8 :: ascii "ex" := rfl
        simp only [hMark, List.cons_append, List.append_assoc,
          List.nil_append]
      · rw [lexeme_hexMark hQuote, literal_of_closed hQuote hText]

/- Or it is the fault which the input begins with. -/
theorem lexeme_of_faultySpan
    {fault : Fault}
    {before rest : Text}
    (hSpan : FaultySpan fault before rest) :
    ∃ b s span behind, before ++ rest = b :: s ∧
      lexeme b s = .faulty fault before span behind := by
  cases hSpan with
  | @comment body hOpen =>
      exact ⟨_, _, _, _, rfl, rfl⟩
  | @string mark body behind quote hMark hQuote hBody =>
      rcases hMark with rfl | rfl
      · refine ⟨quote, body ++ behind, quote :: body, behind, rfl, ?_⟩
        rw [lexeme_quote hQuote, literal_of_unclosed hQuote hBody]
        rfl
      · refine ⟨'h'.toUInt8, ascii "ex" ++ quote :: (body ++ behind),
          hexMark ++ quote :: body, behind, rfl, ?_⟩
        rw [lexeme_hexMark hQuote, literal_of_unclosed hQuote hBody]
  | @byte b s hStray =>
      refine ⟨b, s, [], b :: s, rfl, ?_⟩
      have hColon : b ≠ ':'.toUInt8 := by
        rintro rfl
        exact absurd hStray.symbol (by decide)
      unfold lexeme
      simp only [hStray.quote, hStray.word, hStray.number,
        hStray.symbol, Bool.false_eq_true, if_false, hColon,
        Bool.and_eq_true, decide_eq_true_eq, false_and]
      rw [if_neg (fun h => hStray.arrow h.1 h.2),
        if_neg (fun h => (hStray.comment h.1 _ h.2).2 rfl)]

/- Where a token begins, its lexeme is not the end of the input. -/
theorem kind_ne_of_lexeme
    {b : UInt8}
    {s text span rest : Text}
    {kind : TokenKind}
    (hBegins : BeginsToken (b :: s))
    (hLexeme : lexeme b s = .token kind text span rest) :
    kind ≠ .endOfFile := by
  rcases beginsSpan_of_beginsToken hBegins with
    ⟨kind', text', span', rest', hWhole, hSpan⟩ |
    ⟨fault, mark, rest', hWhole, hSpan⟩
  · rcases lexeme_of_tokenSpan hSpan with ⟨b', s', hFirst, hFound⟩
    rw [← hWhole] at hFirst
    cases hFirst
    rw [hLexeme] at hFound
    cases hFound
    exact hSpan.kind_ne
  · rcases lexeme_of_faultySpan hSpan with
      ⟨b', s', span', behind, hFirst, hFound⟩
    rw [← hWhole] at hFirst
    cases hFirst
    rw [hLexeme] at hFound
    cases hFound

end Yul

end ContractLinker
