import ContractLinker.Proofs.Yul.Tokens

/-
  Texts which spell tokens. A span and a gap depend on what
  stands behind them by its first byte only, so that the
  spans of an input can be written into another text, with
  other gaps between them or behind another text, and a
  lexer finds tokens there which differ in their places.

  Key definitions include:
    * `Yul.Token.bare`
    * `Yul.Separates`
    * `Yul.Spells`
    * `Yul.spanOf`

  Main statements:
    * `Yul.TokenSpan.in_front_of`
    * `Yul.Gap.in_front_of`
    * `Yul.Spells.emits`
    * `Yul.spells_block`
-/

------------------------------------------------------------
-- Tokens Without Their Places
------------------------------------------------------------

namespace ContractLinker

namespace Yul

namespace Token

/- A token without its place. -/
def bare (t : Token) : Token :=
  { t with location := .start, stop := 0 }

variable {t : Token}

@[simp] theorem kind_bare :
    t.bare.kind = t.kind := by
  rfl

@[simp] theorem text_bare :
    t.bare.text = t.text := by
  rfl

@[simp] theorem isSymbol_bare
    (text : Text) :
    t.bare.isSymbol text = t.isSymbol text := by
  rfl

@[simp] theorem isKeyword_bare
    (text : Text) :
    t.bare.isKeyword text = t.isKeyword text := by
  rfl

@[simp] theorem isOpen_bare :
    t.bare.isOpen = t.isOpen := by
  rfl

@[simp] theorem isClose_bare :
    t.bare.isClose = t.isClose := by
  rfl

@[simp] theorem isReferenceFunction_bare :
    isReferenceFunction t.bare = isReferenceFunction t := by
  rfl

end Token

------------------------------------------------------------
-- What Stands Behind
------------------------------------------------------------

/- A byte with which a gap may begin. -/
def Separates (b : UInt8) : Prop :=
  Text.isBlank b = true ∨ b = '/'.toUInt8

/- Such a byte goes on with no token. -/
theorem Separates.ends
    {b : UInt8}
    (hSeparates : Separates b) :
    isQuote b = false ∧ isIdentifierPart b = false ∧
      isNumberPart b = false ∧ b ≠ '='.toUInt8 := by
  have hClasses := classes_disjoint b
  have hQuote : isQuote b = false := by
    rw [← Bool.not_eq_true]
    intro hQuote
    rcases hClasses.1 hQuote with ⟨hBlank, hSlash, -⟩
    simp [Separates, hBlank, hSlash] at hSeparates
  have hStart : isIdentifierStart b = false := by
    rw [← Bool.not_eq_true]
    intro hStart
    rcases hClasses.2.1 hStart with ⟨hBlank, hSlash, -⟩
    simp [Separates, hBlank, hSlash] at hSeparates
  have hDigit : Text.isDigit b = false := by
    rw [← Bool.not_eq_true]
    intro hDigit
    rcases hClasses.2.2.1 hDigit with ⟨hBlank, hSlash, -⟩
    simp [Separates, hBlank, hSlash] at hSeparates
  have hLetter : Text.isLetter b = false := by
    unfold isIdentifierStart at hStart
    simp only [Bool.or_eq_false_iff] at hStart
    exact hStart.1.1
  have hOther :
      b ≠ '.'.toUInt8 ∧ b ≠ '='.toUInt8 := by
    constructor <;> rintro rfl <;> revert hSeparates <;>
      unfold Separates <;> decide
  simp [hQuote, hStart, hDigit, hLetter, hOther, isIdentifierPart,
    isNumberPart]

/-
  A span stays one when what stands behind it is changed, if
  the first byte there stays or separates.
-/
theorem TokenSpan.in_front_of
    {kind : TokenKind}
    {text span rest rest' : Text}
    (hSpan : TokenSpan kind text span rest)
    (hHead : ∀ c ∈ rest'.head?, c ∈ rest.head? ∨ Separates c) :
    TokenSpan kind text span rest' := by
  cases hSpan with
  | identifier hStart hParts hEnd hWord =>
      refine .identifier hStart hParts ?_ ?_
      · intro c hFirst
        rcases hHead c hFirst with hSame | hSeparates
        · exact hEnd c hSame
        · exact hSeparates.ends.2.1
      · intro hMark c hFirst
        rcases hHead c hFirst with hSame | hSeparates
        · exact hWord hMark c hSame
        · exact hSeparates.ends.1
  | number hStart hParts hEnd =>
      refine .number hStart hParts ?_
      intro c hFirst
      rcases hHead c hFirst with hSame | hSeparates
      · exact hEnd c hSame
      · exact hSeparates.ends.2.2.1
  | assign =>
      exact .assign rest'
  | arrow =>
      exact .arrow rest'
  | symbol hSymbol hAssign =>
      refine .symbol hSymbol ?_
      intro hColon hFirst
      rcases hHead _ hFirst with hSame | hSeparates
      · exact hAssign hColon hSame
      · exact hSeparates.ends.2.2.2 rfl
  | string hQuote hText =>
      exact .string hQuote hText rest'
  | hex hQuote hText =>
      exact .hex hQuote hText rest'

theorem head?_append_congr
    {rest rest' : Text}
    (hHead : rest'.head? = rest.head?)
    (s : Text) :
    (s ++ rest').head? = (s ++ rest).head? := by
  simp [List.head?_append, hHead]

/- A gap stays one if the first byte behind it stays. -/
theorem Gap.in_front_of
    {front rest rest' : Text}
    (hGap : Gap front rest)
    (hHead : rest'.head? = rest.head?) :
    Gap front rest' := by
  induction hGap with
  | nil rest =>
      exact .nil rest'
  | @cons piece s rest hPiece _ ih =>
      refine .cons ?_ (ih hHead)
      have hBehind := head?_append_congr hHead s
      cases hPiece with
      | blank hBlank =>
          exact .blank hBlank _
      | line hBody hEnd =>
          rw [← hBehind] at hEnd
          exact .line hBody hEnd
      | block hFirst =>
          exact .block hFirst _

------------------------------------------------------------
-- Spelling
------------------------------------------------------------

/-
  A text spells tokens, gaps around them, when it stands
  behind another text.
-/
inductive Spells : Text → Text → List Token → Prop where
  | finish {before front : Text}
      (hGap : Gap front []) :
      Spells before front []
  | token {before front span rest text : Text} {kind : TokenKind}
      {tokens : List Token}
      (hGap : Gap front (span ++ rest))
      (hSpan : TokenSpan kind text span rest)
      (hRest : Spells (before ++ front ++ span) rest tokens) :
      Spells before (front ++ (span ++ rest))
        (⟨kind, text, .behind (before ++ front),
          (before ++ front ++ span).length⟩ :: tokens)

/- A lexer in front of a text finds the tokens spelled there. -/
theorem Spells.emits
    {before s : Text}
    {tokens : List Token}
    (hSpells : Spells before s tokens) :
    Lexer.Emits ⟨⟨.behind before, s⟩, none⟩ tokens
      (.ok (endToken (before ++ s))) := by
  induction hSpells with
  | @finish before front hGap =>
      have hScan := Cursor.scan_of_gap hGap before
      exact .finish (Lexer.next_of_scan hScan) rfl
  | @token before front span rest text kind tokens hGap hSpan _ ih =>
      have hScan := Cursor.scan_of_tokenSpan hGap hSpan before
      simp only [List.append_assoc] at ih hScan ⊢
      exact .token (Lexer.next_of_scan hScan) hSpan.kind_ne ih

theorem Spells.stream_ofText
    {s : Text}
    {tokens : List Token}
    (hSpells : Spells [] s tokens) :
    TokenStream.ofText s = ⟨tokens, .ok (endToken s)⟩ := by
  have hStream := TokenStream.emits_ofText s
  rcases hStream.unique hSpells.emits with ⟨hTokens, hEnding⟩
  rw [← hTokens, ← List.nil_append s, ← hEnding]
  rfl

/- What a lexer emits is the cut of its input. -/
theorem Lexer.Emits.tokenized
    {s : Text}
    {tokens : List Token}
    {ending : Except ParseError Token}
    (hEmits : (Lexer.ofText s).Emits tokens ending) :
    Tokenized s 0 tokens ending := by
  rcases exists_tokenization s with ⟨tokens', ending', hCut⟩
  rcases hEmits.unique (Lexer.emits_of_tokenization hCut) with
    ⟨rfl, rfl⟩
  exact hCut.cut

------------------------------------------------------------
-- Spans Written Elsewhere
------------------------------------------------------------

variable {s : Text}

theorem slice_append_slice
    {start middle stop : Nat}
    (hFront : start ≤ middle)
    (hBack : middle ≤ stop) :
    slice s start middle ++ slice s middle stop =
      slice s start stop := by
  have hSum : stop - start = (middle - start) + (stop - middle) := by
    omega
  have hMiddle : start + (middle - start) = middle := by
    omega
  simp only [slice, hSum, List.take_add, List.drop_drop, hMiddle]

/- The bytes of a token. -/
def spanOf (s : Text) (t : Token) : Text :=
  slice s t.location.offset t.stop

/- A token whose span was written behind a text. -/
def Token.behind (t : Token) (before span : Text) : Token where
  kind := t.kind
  text := t.text
  location := .behind before
  stop := (before ++ span).length

@[simp] theorem Token.bare_behind
    (t : Token)
    (before span : Text) :
    (t.behind before span).bare = t.bare := by
  rfl

theorem TokenAt.length_spanOf
    {t : Token}
    (hToken : TokenAt s t) :
    0 < (spanOf s t).length := by
  exact hToken.span.length_pos

/- What follows a span does not matter to the gap in front of it. -/
theorem GapBetween.in_front_of
    {start : Nat}
    {t : Token}
    (hGap : GapBetween s start t.location.offset)
    (hToken : TokenAt s t)
    (rest : Text) :
    Gap (slice s start t.location.offset) (spanOf s t ++ rest) := by
  have hInner := slice_append_drop (s := s) (Nat.le_of_lt hToken.nonempty)
  have hPositive := hToken.length_spanOf
  apply hGap.isGap.in_front_of
  rw [← hInner, ← spanOf]
  cases hSpan : spanOf s t with
  | nil => simp [hSpan] at hPositive
  | cons b span => rfl

/- The span of a token, behind another gap and in front of more. -/
theorem spells_cons
    {t : Token}
    {before front rest : Text}
    {tokens : List Token}
    (hToken : TokenAt s t)
    (hGap : Gap front (spanOf s t ++ rest))
    (hHead : ∀ c ∈ rest.head?,
      c ∈ (s.drop t.stop).head? ∨ Separates c)
    (hRest : Spells (before ++ front ++ spanOf s t) rest tokens) :
    Spells before (front ++ (spanOf s t ++ rest))
      (t.behind (before ++ front) (spanOf s t) :: tokens) := by
  exact .token hGap (hToken.span.in_front_of hHead) hRest

theorem mem_head?_of_slice
    {start stop : Nat}
    {c : UInt8}
    (hHead : c ∈ (slice s start stop).head?) :
    c ∈ (s.drop start).head? := by
  unfold slice at hHead
  rw [List.head?_take] at hHead
  split at hHead
  · cases hHead
  · exact hHead

/- The rest of a cut is a cut. -/
theorem Tokenized.exists_rest
    {start : Nat}
    {front back : List Token}
    {ending : Except ParseError Token}
    (hCut : Tokenized s start (front ++ back) ending) :
    ∃ middle, Tokenized s middle back ending := by
  induction front generalizing start with
  | nil =>
      exact ⟨start, hCut⟩
  | cons t front ih =>
      cases hCut with
      | token _ _ hRest => exact ih hRest

theorem Tokenized.tokenAt
    {start : Nat}
    {tokens : List Token}
    {ending : Except ParseError Token}
    (hCut : Tokenized s start tokens ending)
    {t : Token}
    (hMember : t ∈ tokens) :
    TokenAt s t := by
  induction hCut with
  | token _ hToken _ ih =>
      rcases List.mem_cons.mp hMember with rfl | hRest
      · exact hToken
      · exact ih hRest
  | finish _ =>
      simp at hMember
  | fault _ _ =>
      simp at hMember

/-
  The tokens of an input up to some token are spelled by the
  bytes up to there, behind any text.
-/
theorem spells_block
    {start : Nat}
    {body behind : List Token}
    {closing : Token}
    {ending : Except ParseError Token}
    (hCut : Tokenized s start (body ++ closing :: behind) ending)
    (before : Text) :
    ∃ body' closing',
      Spells before (slice s start closing.stop) (body' ++ [closing']) ∧
      body'.map Token.bare = body.map Token.bare ∧
      closing'.bare = closing.bare ∧
      closing'.stop = (before ++ slice s start closing.stop).length := by
  induction body generalizing start before with
  | nil =>
      cases hCut with
      | token hGap hToken _ =>
          have hSlice :
              slice s start closing.stop =
                slice s start closing.location.offset ++
                  (spanOf s closing ++ []) := by
            rw [List.append_nil]
            exact (slice_append_slice hGap.le
              (Nat.le_of_lt hToken.nonempty)).symm
          rw [hSlice]
          refine ⟨[], closing.behind _ _, spells_cons hToken ?_ ?_ ?_,
            rfl, closing.bare_behind _ _, ?_⟩
          · exact hGap.in_front_of hToken []
          · simp
          · exact .finish (.nil [])
          · simp [Token.behind]
  | cons t body ih =>
      cases hCut with
      | token hGap hToken hRest =>
          have hMember : closing ∈ body ++ closing :: behind := by
            simp
          have hInside := Nat.le_of_lt hToken.nonempty
          have hBehind : t.stop ≤ closing.stop :=
            Nat.le_trans (hRest.increasing.1 closing hMember)
              (Nat.le_of_lt (hRest.tokenAt hMember).nonempty)
          have hSlice :
              slice s start closing.stop =
                slice s start t.location.offset ++
                  (spanOf s t ++ slice s t.stop closing.stop) := by
            rw [spanOf, slice_append_slice hInside hBehind,
              slice_append_slice hGap.le
                (Nat.le_trans hInside hBehind)]
          rcases ih hRest
              (before ++ slice s start t.location.offset ++ spanOf s t)
            with
            ⟨body', closing', hSpells, hBody, hClosing, hStop⟩
          rw [hSlice]
          refine ⟨t.behind _ _ :: body', closing',
            spells_cons hToken (hGap.in_front_of hToken _) ?_ hSpells,
            ?_, hClosing, ?_⟩
          · intro c hHead
            exact Or.inl (mem_head?_of_slice hHead)
          · simp [hBody]
          · simpa using hStop

end Yul

end ContractLinker
