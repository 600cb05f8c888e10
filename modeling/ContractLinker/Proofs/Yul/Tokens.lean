import ContractLinker.Proofs.Yul.Lexemes
import ContractLinker.Yul.Parser

/-
  The tokens of an input. A lexer which is asked for tokens
  until it gives the one of the end or reports an error cuts
  the input at offsets: between the spans of the tokens there
  are gaps, and lines and columns are counted from the line
  breaks in front of a place. There is one such cut of every
  input, and the lexer finds it.

  Key definitions include:
    * `Yul.Location.behind`
    * `Yul.Lexer.Emits`
    * `Yul.GapBetween`, `Yul.TokenAt`, `Yul.FaultAt`
    * `Yul.Tokenized`
    * `Yul.Tokenization`

  Main statements:
    * `Yul.exists_tokenized`
    * `Yul.emits_of_tokenized`
    * `Yul.Lexer.emits_iff_tokenization`
    * `Yul.TokenStream.emits_ofText`
-/

------------------------------------------------------------
-- Places
------------------------------------------------------------

namespace ContractLinker

namespace Yul

namespace Location

/-
  The place behind the first bytes of an input: the line is
  given by the line breaks among them, the column by what
  stands behind the last one.
-/
def behind (before : Text) : Location where
  line := 1 + before.count Text.newline
  column :=
    1 + (before.reverse.takeWhile (· != Text.newline)).length
  offset := before.length

theorem advance_behind
    (before : Text)
    (b : UInt8) :
    (behind before).advance b = behind (before ++ [b]) := by
  by_cases hNewline : b = Text.newline
  · subst hNewline
    simp [advance, behind, List.count_append, Nat.add_assoc]
  · simp [advance, behind, hNewline, List.count_append,
      Nat.add_assoc]

/- Places are behind one another as texts are. -/
theorem after_behind
    (before s : Text) :
    (behind before).after s = behind (before ++ s) := by
  induction s generalizing before with
  | nil =>
      rw [List.append_nil]
      rfl
  | cons b s ih =>
      have hStep :
          (behind before).after (b :: s) =
            ((behind before).advance b).after s := rfl
      rw [hStep, advance_behind, ih, List.append_assoc]
      rfl

end Location

------------------------------------------------------------
-- Slices
------------------------------------------------------------

theorem slice_append_drop
    {s : Text}
    {start stop : Nat}
    (hLe : start ≤ stop) :
    slice s start stop ++ s.drop stop = s.drop start := by
  have hSum : start + (stop - start) = stop := by
    omega
  have hDrop : s.drop stop = (s.drop start).drop (stop - start) := by
    rw [List.drop_drop, hSum]
  rw [hDrop]
  exact List.take_append_drop _ _

theorem take_append_slice
    {s : Text}
    {start stop : Nat}
    (hLe : start ≤ stop) :
    s.take start ++ slice s start stop = s.take stop := by
  have hSum : start + (stop - start) = stop := by
    omega
  rw [slice, ← List.take_add, hSum]

/- A part of the rest of an input is a slice. -/
theorem slice_of_drop
    {s front rest : Text}
    {start : Nat}
    (hDrop : s.drop start = front ++ rest) :
    slice s start (start + front.length) = front ∧
      s.drop (start + front.length) = rest := by
  constructor
  · rw [slice, hDrop, Nat.add_sub_cancel_left, List.take_left]
  · rw [← List.drop_drop, hDrop, List.drop_left]

theorem length_le_of_drop
    {s front rest : Text}
    {start : Nat}
    (hStart : start ≤ s.length)
    (hDrop : s.drop start = front ++ rest) :
    start + front.length ≤ s.length := by
  have hLength := congrArg List.length hDrop
  rw [List.length_drop, List.length_append] at hLength
  omega

------------------------------------------------------------
-- Cuts Of An Input
------------------------------------------------------------

namespace Lexer

/-
  The answers of a lexer which is asked for its next token
  until it gives the one of the end or reports an error: the
  tokens before that, and the last answer.
-/
inductive Emits :
    Lexer → List Token → Except ParseError Token → Prop where
  | token {l l' : Lexer} {t : Token} {tokens : List Token}
      {ending : Except ParseError Token}
      (hNext : l.next = (.ok t, l'))
      (hKind : t.kind ≠ .endOfFile)
      (hRest : Emits l' tokens ending) :
      Emits l (t :: tokens) ending
  | finish {l l' : Lexer} {t : Token}
      (hNext : l.next = (.ok t, l'))
      (hKind : t.kind = .endOfFile) :
      Emits l [] (.ok t)
  | fault {l l' : Lexer} {e : ParseError}
      (hNext : l.next = (.error e, l')) :
      Emits l [] (.error e)

end Lexer

/- Between two offsets of an input there is nothing but a gap. -/
structure GapBetween (s : Text) (start stop : Nat) : Prop where
  le : start ≤ stop
  bound : stop ≤ s.length
  isGap : Gap (slice s start stop) (s.drop stop)

/- A token is what its span says, and stands at its place. -/
structure TokenAt (s : Text) (t : Token) : Prop where
  nonempty : t.location.offset < t.stop
  bound : t.stop ≤ s.length
  location : t.location = .behind (s.take t.location.offset)
  span : TokenSpan t.kind t.text
    (slice s t.location.offset t.stop) (s.drop t.stop)

/- At an offset no token begins, and the error says why. -/
structure FaultAt (s : Text) (start : Nat) (e : ParseError) :
    Prop where
  bound : e.location.offset ≤ s.length
  le : start ≤ e.location.offset
  location : e.location = .behind (s.take e.location.offset)
  span : FaultySpan e.fault (slice s start e.location.offset)
    (s.drop e.location.offset)

/- The token at the end of an input. -/
def endToken (s : Text) : Token where
  kind := .endOfFile
  text := []
  location := .behind s
  stop := s.length

/-
  An input cut from an offset on: gaps and tokens, up to the
  end of the input or to a fault.
-/
inductive Tokenized (s : Text) :
    Nat → List Token → Except ParseError Token → Prop where
  | token {start : Nat} {t : Token} {tokens : List Token}
      {ending : Except ParseError Token}
      (hGap : GapBetween s start t.location.offset)
      (hToken : TokenAt s t)
      (hRest : Tokenized s t.stop tokens ending) :
      Tokenized s start (t :: tokens) ending
  | finish {start : Nat}
      (hGap : GapBetween s start s.length) :
      Tokenized s start [] (.ok (endToken s))
  | fault {start stop : Nat} {e : ParseError}
      (hGap : GapBetween s start stop)
      (hFault : FaultAt s stop e) :
      Tokenized s start [] (.error e)

/- An input cut as a whole; no two tokens overlap. -/
structure Tokenization (s : Text) (tokens : List Token)
    (ending : Except ParseError Token) : Prop where
  cut : Tokenized s 0 tokens ending
  increasing :
    tokens.Pairwise fun t u => t.stop ≤ u.location.offset

------------------------------------------------------------
-- Scanning
------------------------------------------------------------

namespace Cursor

/- The cursor at an offset of an input. -/
def atOffset (s : Text) (start : Nat) : Cursor where
  location := .behind (s.take start)
  rest := s.drop start

theorem scan_of_tokenSpan
    {kind : TokenKind}
    {text front span rest : Text}
    (hGap : Gap front (span ++ rest))
    (hSpan : TokenSpan kind text span rest)
    (before : Text) :
    scan ⟨.behind before, front ++ (span ++ rest)⟩ =
      (.ok ⟨kind, text, .behind (before ++ front),
          (before ++ front ++ span).length⟩,
        ⟨.behind (before ++ front ++ span), rest⟩) := by
  rcases lexeme_of_tokenSpan hSpan with ⟨b, t, hWhole, hLexeme⟩
  unfold scan
  rw [gap_append hGap (beginsToken_of_tokenSpan hSpan), hWhole]
  dsimp only
  rw [hLexeme]
  dsimp only
  rw [Location.after_behind, Location.after_behind]
  rfl

theorem scan_of_gap
    {front : Text}
    (hGap : Gap front [])
    (before : Text) :
    scan ⟨.behind before, front⟩ =
      (.ok (endToken (before ++ front)),
        ⟨.behind (before ++ front), []⟩) := by
  have hBegins : BeginsToken [] := by
    rw [← gap_eq_nil_iff]
    rfl
  have hCut := gap_append hGap hBegins
  rw [List.append_nil] at hCut
  unfold scan
  rw [hCut]
  dsimp only
  rw [Location.after_behind]
  rfl

theorem scan_of_faultySpan
    {fault : Fault}
    {front mark rest : Text}
    (hGap : Gap front (mark ++ rest))
    (hSpan : FaultySpan fault mark rest)
    (before : Text) :
    ∃ c, scan ⟨.behind before, front ++ (mark ++ rest)⟩ =
      (.error ⟨.behind (before ++ front ++ mark), fault⟩, c) := by
  rcases lexeme_of_faultySpan hSpan with
    ⟨b, t, span, behind, hWhole, hLexeme⟩
  refine ⟨⟨.behind (before ++ front ++ span), behind⟩, ?_⟩
  unfold scan
  rw [gap_append hGap (beginsToken_of_faultySpan hSpan), hWhole]
  dsimp only
  rw [hLexeme]
  dsimp only
  rw [Location.after_behind, Location.after_behind,
    Location.after_behind]

------------------------------------------------------------
-- Scanning At Offsets
------------------------------------------------------------

variable {s : Text} {start : Nat}

/- The scan finds the token behind a gap. -/
theorem scan_of_tokenAt
    {t : Token}
    (hGap : GapBetween s start t.location.offset)
    (hToken : TokenAt s t) :
    (atOffset s start).scan = (.ok t, atOffset s t.stop) := by
  rcases hGap with ⟨hLe, hBound, hGap⟩
  have hSpan := hToken.span
  have hInner := slice_append_drop (s := s) (Nat.le_of_lt hToken.nonempty)
  have hOuter := slice_append_drop (s := s) hLe
  rw [← hInner] at hGap hOuter
  have hScan := scan_of_tokenSpan hGap hSpan (s.take start)
  rw [hOuter, take_append_slice hLe,
    take_append_slice (Nat.le_of_lt hToken.nonempty),
    ← hToken.location, List.length_take_of_le hToken.bound] at hScan
  exact hScan

/- Behind the last gap it finds the end. -/
theorem scan_of_gapBetween
    (hGap : GapBetween s start s.length) :
    (atOffset s start).scan =
      (.ok (endToken s), atOffset s s.length) := by
  rcases hGap with ⟨hLe, hBound, hGap⟩
  have hOuter := slice_append_drop (s := s) hLe
  rw [List.drop_length] at hGap
  rw [List.drop_length, List.append_nil] at hOuter
  have hScan := scan_of_gap hGap (s.take start)
  rw [take_append_slice hLe, List.take_length, hOuter] at hScan
  rw [atOffset, hScan, atOffset, List.take_length, List.drop_length]

/- Or it finds what is wrong there. -/
theorem scan_of_faultAt
    {stop : Nat}
    {e : ParseError}
    (hGap : GapBetween s start stop)
    (hFault : FaultAt s stop e) :
    ∃ c, (atOffset s start).scan = (.error e, c) := by
  rcases hGap with ⟨hLe, hBound, hGap⟩
  have hInner := slice_append_drop (s := s) hFault.le
  have hOuter := slice_append_drop (s := s) hLe
  rw [← hInner] at hGap hOuter
  rcases scan_of_faultySpan hGap hFault.span (s.take start) with
    ⟨c, hScan⟩
  rw [hOuter, take_append_slice hLe, take_append_slice hFault.le,
    ← hFault.location] at hScan
  exact ⟨c, hScan⟩

end Cursor

------------------------------------------------------------
-- Every Input Has A Cut
------------------------------------------------------------

variable {s : Text} {start : Nat}

theorem offset_behind_take
    (hBound : start ≤ s.length) :
    (Location.behind (s.take start)).offset = start := by
  exact List.length_take_of_le hBound

/- A span of an input makes a token at its offset. -/
theorem tokenAt_of_drop
    {kind : TokenKind}
    {text span rest : Text}
    (hStart : start ≤ s.length)
    (hDrop : s.drop start = span ++ rest)
    (hSpan : TokenSpan kind text span rest) :
    ∃ t, t.location.offset = start ∧ TokenAt s t := by
  have hSlice := slice_of_drop hDrop
  have hOffset := offset_behind_take hStart
  have hPositive := hSpan.length_pos
  refine
    ⟨⟨kind, text, .behind (s.take start), start + span.length⟩,
      hOffset, ?_⟩
  constructor
  · dsimp only
    omega
  · exact length_le_of_drop hStart hDrop
  · dsimp only
    rw [hOffset]
  · dsimp only
    rw [hOffset, hSlice.1, hSlice.2]
    exact hSpan

theorem faultAt_of_drop
    {fault : Fault}
    {mark rest : Text}
    (hStart : start ≤ s.length)
    (hDrop : s.drop start = mark ++ rest)
    (hSpan : FaultySpan fault mark rest) :
    ∃ e, FaultAt s start e := by
  have hSlice := slice_of_drop hDrop
  have hBound := length_le_of_drop hStart hDrop
  have hOffset := offset_behind_take hBound
  refine ⟨⟨.behind (s.take (start + mark.length)), fault⟩, ?_⟩
  constructor
  · dsimp only
    rw [hOffset]
    exact hBound
  · dsimp only
    rw [hOffset]
    exact Nat.le_add_right _ _
  · dsimp only
    rw [hOffset]
  · dsimp only
    rw [hOffset, hSlice.1, hSlice.2]
    exact hSpan

/- What stands behind an offset: a token, the end or a fault. -/
theorem cut_cases
    (hStart : start ≤ s.length) :
    (∃ t, GapBetween s start t.location.offset ∧ TokenAt s t) ∨
      GapBetween s start s.length ∨
      ∃ stop e, GapBetween s start stop ∧ FaultAt s stop e := by
  rcases gapCut_gap (s.drop start) with ⟨hWhole, hGap, hBegins⟩
  have hSlice := slice_of_drop hWhole
  have hBound := length_le_of_drop hStart hWhole
  have hBetween :
      GapBetween s start (start + (gap (s.drop start)).1.length) := by
    refine ⟨Nat.le_add_right _ _, hBound, ?_⟩
    rw [hSlice.1, hSlice.2]
    exact hGap
  generalize start + (gap (s.drop start)).1.length = stop
    at hSlice hBound hBetween
  cases hRest : (gap (s.drop start)).2 with
  | nil =>
      rw [hRest] at hSlice
      have hStop : stop = s.length := by
        have hLength := List.drop_eq_nil_iff.mp hSlice.2
        omega
      rw [hStop] at hBetween
      exact Or.inr (Or.inl hBetween)
  | cons b t =>
      rw [hRest] at hSlice hBegins
      rcases beginsSpan_of_beginsToken hBegins with
        ⟨kind, text, span, rest, hSpan, hToken⟩ |
        ⟨fault, mark, rest, hSpan, hFault⟩
      · have hDrop := hSlice.2.trans hSpan
        rcases tokenAt_of_drop hBound hDrop hToken with
          ⟨token, hOffset, hAt⟩
        rw [← hOffset] at hBetween
        exact Or.inl ⟨token, hBetween, hAt⟩
      · have hDrop := hSlice.2.trans hSpan
        rcases faultAt_of_drop hBound hDrop hFault with ⟨e, hAt⟩
        exact Or.inr (Or.inr ⟨stop, e, hBetween, hAt⟩)

theorem exists_tokenized
    (hStart : start ≤ s.length) :
    ∃ tokens ending, Tokenized s start tokens ending := by
  -- Every token leaves less of the input.
  induction hLeft : s.length - start using Nat.strongRecOn
    generalizing start with
  | ind n ih =>
      rcases cut_cases hStart with
        ⟨t, hGap, hToken⟩ | hGap | ⟨stop, e, hGap, hFault⟩
      · have hLe := hGap.le
        have hNonempty := hToken.nonempty
        have hBound := hToken.bound
        rcases ih (s.length - t.stop) (by omega) hBound rfl with
          ⟨tokens, ending, hRest⟩
        exact ⟨t :: tokens, ending, .token hGap hToken hRest⟩
      · exact ⟨[], _, .finish hGap⟩
      · exact ⟨[], _, .fault hGap hFault⟩

/- The tokens of a cut come one behind the other. -/
theorem Tokenized.increasing
    {tokens : List Token}
    {ending : Except ParseError Token}
    (hCut : Tokenized s start tokens ending) :
    (∀ t ∈ tokens, start ≤ t.location.offset) ∧
      tokens.Pairwise fun t u => t.stop ≤ u.location.offset := by
  induction hCut with
  | token hGap hToken _ ih =>
      have hLe := hGap.le
      have hNonempty := hToken.nonempty
      constructor
      · intro u hMember
        rcases List.mem_cons.mp hMember with rfl | hRest
        · exact hLe
        · have hLater := ih.1 u hRest
          omega
      · exact List.pairwise_cons.mpr ih
  | finish _ =>
      simp
  | fault _ _ =>
      simp

theorem exists_tokenization
    (s : Text) :
    ∃ tokens ending, Tokenization s tokens ending := by
  rcases exists_tokenized (Nat.zero_le s.length) with
    ⟨tokens, ending, hCut⟩
  exact ⟨tokens, ending, hCut, hCut.increasing.2⟩

------------------------------------------------------------
-- The Lexer Finds The Cut
------------------------------------------------------------

namespace Lexer

/- Without a token at hand a lexer scans for the next one. -/
theorem next_of_scan
    {c c' : Cursor}
    {outcome : Except ParseError Token}
    (hScan : c.scan = (outcome, c')) :
    next ⟨c, none⟩ = (outcome, ⟨c', none⟩) := by
  unfold next
  dsimp only
  rw [hScan]

/- A lexer in front of a cut emits its tokens. -/
theorem emits_of_tokenized
    {tokens : List Token}
    {ending : Except ParseError Token}
    (hCut : Tokenized s start tokens ending) :
    Emits ⟨.atOffset s start, none⟩ tokens ending := by
  induction hCut with
  | token hGap hToken _ ih =>
      have hScan := Cursor.scan_of_tokenAt hGap hToken
      exact .token (next_of_scan hScan) hToken.span.kind_ne ih
  | finish hGap =>
      have hScan := Cursor.scan_of_gapBetween hGap
      exact .finish (next_of_scan hScan) rfl
  | fault hGap hFault =>
      rcases Cursor.scan_of_faultAt hGap hFault with ⟨c, hScan⟩
      exact .fault (next_of_scan hScan)

/- What a lexer emits is determined. -/
theorem Emits.unique
    {l : Lexer}
    {tokens tokens' : List Token}
    {ending ending' : Except ParseError Token}
    (hEmits : Emits l tokens ending)
    (hEmits' : Emits l tokens' ending') :
    tokens = tokens' ∧ ending = ending' := by
  induction hEmits generalizing tokens' ending' with
  | token hNext hKind _ ih =>
      cases hEmits' with
      | token hNext' _ hRest' =>
          rw [hNext, Prod.mk.injEq, Except.ok.injEq] at hNext'
          rcases hNext' with ⟨rfl, rfl⟩
          rcases ih hRest' with ⟨rfl, rfl⟩
          exact ⟨rfl, rfl⟩
      | finish hNext' hKind' =>
          rw [hNext, Prod.mk.injEq, Except.ok.injEq] at hNext'
          rw [hNext'.1] at hKind
          exact absurd hKind' hKind
      | fault hNext' =>
          rw [hNext] at hNext'
          cases hNext'
  | finish hNext hKind =>
      cases hEmits' with
      | token hNext' hKind' _ =>
          rw [hNext, Prod.mk.injEq, Except.ok.injEq] at hNext'
          rw [hNext'.1] at hKind
          exact absurd hKind hKind'
      | finish hNext' _ =>
          rw [hNext] at hNext'
          cases hNext'
          exact ⟨rfl, rfl⟩
      | fault hNext' =>
          rw [hNext] at hNext'
          cases hNext'
  | fault hNext =>
      cases hEmits' with
      | token hNext' _ _ | finish hNext' _ =>
          rw [hNext] at hNext'
          cases hNext'
      | fault hNext' =>
          rw [hNext] at hNext'
          cases hNext'
          exact ⟨rfl, rfl⟩

theorem emits_of_tokenization
    {tokens : List Token}
    {ending : Except ParseError Token}
    (hCut : Tokenization s tokens ending) :
    (ofText s).Emits tokens ending := by
  exact emits_of_tokenized hCut.cut

/-
  A lexer which is asked again and again comes to the end of
  its input or to a fault, and what it gives until then is
  the cut of the input, of which there is but one.
-/
theorem emits_iff_tokenization
    (s : Text) :
    (∃ tokens ending, (ofText s).Emits tokens ending) ∧
      ∀ tokens ending,
        (ofText s).Emits tokens ending ↔
          Tokenization s tokens ending := by
  rcases exists_tokenization s with ⟨tokens, ending, hCut⟩
  have hEmits := emits_of_tokenization hCut
  refine ⟨⟨tokens, ending, hEmits⟩, ?_⟩
  intro tokens' ending'
  constructor
  · intro hEmits'
    rcases hEmits.unique hEmits' with ⟨rfl, rfl⟩
    exact hCut
  · exact emits_of_tokenization

end Lexer

------------------------------------------------------------
-- Token Streams
------------------------------------------------------------

namespace TokenStream

theorem scanAll_of_tokenized
    {tokens : List Token}
    {ending : Except ParseError Token}
    (hCut : Tokenized s start tokens ending)
    {fuel : Nat}
    (hFuel : s.length - start ≤ fuel) :
    scanAll fuel (.atOffset s start) = ⟨tokens, ending⟩ := by
  induction hCut generalizing fuel with
  | token hGap hToken _ ih =>
      have hLe := hGap.le
      have hNonempty := hToken.nonempty
      have hBound := hToken.bound
      cases fuel with
      | zero =>
          omega
      | succ fuel =>
          rw [scanAll, Cursor.scan_of_tokenAt hGap hToken]
          dsimp only
          rw [if_neg hToken.span.kind_ne, ih (by omega)]
          rfl
  | finish hGap =>
      cases fuel with
      | zero =>
          rw [scanAll, Cursor.scan_of_gapBetween hGap]
      | succ fuel =>
          rw [scanAll, Cursor.scan_of_gapBetween hGap]
          exact if_pos rfl
  | fault hGap hFault =>
      rcases Cursor.scan_of_faultAt hGap hFault with ⟨c, hScan⟩
      cases fuel with
      | zero => rw [scanAll, hScan]
      | succ fuel => rw [scanAll, hScan]

/- The stream of an input holds what a lexer emits. -/
theorem emits_ofText
    (s : Text) :
    (Lexer.ofText s).Emits (ofText s).tokens (ofText s).ending := by
  rcases exists_tokenization s with ⟨tokens, ending, hCut⟩
  have hScan :
      ofText s = ⟨tokens, ending⟩ :=
    scanAll_of_tokenized hCut.cut (by omega)
  rw [hScan]
  exact Lexer.emits_of_tokenization hCut

end TokenStream

end Yul

end ContractLinker
