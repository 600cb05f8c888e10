import ContractLinker.Proofs.Yul.Grammar

/-
  Reading code blocks. A reader of a block keeps the depth
  of its braces and how much of a reference it has seen; it
  is done at the brace which closes a balanced sequence of
  tokens, and knows the references among them.

  Key definitions include:
    * `Yul.Reads`
    * `Yul.depthAfter`
    * `Yul.referencesFrom`

  Main statements:
    * `Yul.Reads.feed_append`
    * `Yul.balanced_iff_depthAfter`
    * `Yul.referencesFrom_eq`
    * `Yul.CodeReader.reads_block`
    * `Yul.CodeReader.step_closing`
    * `Yul.CodeReader.feed_keyword_eq_ok_iff`
-/

------------------------------------------------------------
-- Runs Of Readers
------------------------------------------------------------

namespace ContractLinker

namespace Yul

section Readers

variable {σ α : Type}
variable {step : σ → Token → Except ParseError (Progress σ α)}
variable {refuse : σ → Token → ParseError}
variable {ending : Except ParseError Token}

/- Tokens which take a reader from one state to another. -/
inductive Reads
    (step : σ → Token → Except ParseError (Progress σ α)) :
    σ → List Token → σ → Prop where
  | nil (state : σ) :
      Reads step state [] state
  | cons {state next last : σ} {t : Token} {rest : List Token}
      (hStep : step state t = .ok (.more next))
      (hRest : Reads step next rest last) :
      Reads step state (t :: rest) last

theorem Reads.append
    {first middle last : σ}
    {front back : List Token}
    (hFront : Reads step first front middle)
    (hBack : Reads step middle back last) :
    Reads step first (front ++ back) last := by
  induction hFront with
  | nil state => exact hBack
  | cons hStep _ ih => exact .cons hStep (ih hBack)

theorem Reads.one
    {state next : σ}
    {t : Token}
    (hStep : step state t = .ok (.more next)) :
    Reads step state [t] next := by
  exact .cons hStep (.nil next)

/- How reading goes on after the outcome of a step. -/
def resume
    (step : σ → Token → Except ParseError (Progress σ α))
    (refuse : σ → Token → ParseError)
    (ending : Except ParseError Token)
    (outcome : Except ParseError (Progress σ α))
    (rest : List Token) :
    Except ParseError (α × TokenStream) :=
  match outcome with
  | .error e => .error e
  | .ok (.more next) => feed step refuse ending next rest
  | .ok (.done result) => .ok (result, ⟨rest, ending⟩)

theorem feed_cons
    (state : σ)
    (t : Token)
    (rest : List Token) :
    feed step refuse ending state (t :: rest) =
      resume step refuse ending (step state t) rest := by
  rw [feed.eq_def]
  dsimp only
  cases step state t with
  | error e => rfl
  | ok progress => cases progress <;> rfl

/- What has been read does not matter any more. -/
theorem Reads.feed_append
    {first last : σ}
    {front : List Token}
    (hReads : Reads step first front last)
    (back : List Token) :
    feed step refuse ending first (front ++ back) =
      feed step refuse ending last back := by
  induction hReads with
  | nil state =>
      rfl
  | cons hStep _ ih =>
      rw [List.cons_append, feed_cons, hStep]
      exact ih

/- A reader which is not done at the end of its tokens fails. -/
theorem feed_nil_ne_ok
    (state : σ)
    (result : α × TokenStream) :
    feed step refuse ending state [] ≠ .ok result := by
  rw [feed.eq_def]
  cases ending <;> simp

/- A reader which comes to a result takes a token. -/
theorem exists_step_of_feed
    {state : σ}
    {tokens : List Token}
    {result : α × TokenStream}
    (hFeed : feed step refuse ending state tokens = .ok result) :
    ∃ t rest, tokens = t :: rest ∧
      resume step refuse ending (step state t) rest = .ok result := by
  cases tokens with
  | nil =>
      exact absurd hFeed (feed_nil_ne_ok state result)
  | cons t rest =>
      rw [feed_cons] at hFeed
      exact ⟨t, rest, rfl, hFeed⟩

end Readers

------------------------------------------------------------
-- Braces
------------------------------------------------------------

/- The depth behind a token; the brace around is not closed. -/
def depthBehind (depth : Nat) (t : Token) : Option Nat :=
  if t.isOpen then
    some (depth + 1)
  else if t.isClose then
    match depth with
    | 0 => none
    | depth + 1 => some depth
  else
    some depth

/- The depth behind some tokens. -/
def depthAfter : Nat → List Token → Option Nat
  | depth, [] => some depth
  | depth, t :: rest =>
      (depthBehind depth t).bind fun next => depthAfter next rest

theorem depthBehind_eq_none_iff
    {depth : Nat}
    {t : Token} :
    depthBehind depth t = none ↔ t.isClose = true ∧ depth = 0 := by
  unfold depthBehind
  by_cases hOpen : t.isOpen = true
  · simp [hOpen, Token.isClose_of_isOpen hOpen]
  · by_cases hClose : t.isClose = true
    · cases depth <;> simp [hOpen, hClose]
    · simp [hOpen, hClose]

theorem depthBehind_eq_some_iff
    {depth next : Nat}
    {t : Token} :
    depthBehind depth t = some next ↔
      depth + (if t.isOpen then 1 else 0) =
        next + if t.isClose then 1 else 0 := by
  unfold depthBehind
  by_cases hOpen : t.isOpen = true
  · simp [hOpen, Token.isClose_of_isOpen hOpen]
  · by_cases hClose : t.isClose = true
    · cases depth <;> simp [hOpen, hClose]
    · simp [hOpen, hClose]

theorem forall_prefix_cons_iff
    {motive : List Token → Prop}
    {t : Token}
    {rest : List Token} :
    (∀ front, front <+: t :: rest → motive front) ↔
      motive [] ∧ ∀ front, front <+: rest → motive (t :: front) := by
  constructor
  · intro hAll
    refine ⟨hAll [] List.nil_prefix, ?_⟩
    intro front hFront
    exact hAll (t :: front) (List.cons_prefix_cons.mpr ⟨rfl, hFront⟩)
  · rintro ⟨hNil, hCons⟩ front hFront
    cases front with
    | nil =>
        exact hNil
    | cons u front =>
        rcases List.cons_prefix_cons.mp hFront with ⟨rfl, hRest⟩
        exact hCons front hRest

/- The depth counts the braces, and never goes below zero. -/
theorem depthAfter_eq_some_iff
    {depth last : Nat}
    {body : List Token} :
    depthAfter depth body = some last ↔
      depth + body.countP Token.isOpen =
        last + body.countP Token.isClose ∧
      ∀ front, front <+: body →
        front.countP Token.isClose ≤
          depth + front.countP Token.isOpen := by
  induction body generalizing depth with
  | nil =>
      simp [depthAfter]
  | cons t rest ih =>
      rw [depthAfter, forall_prefix_cons_iff]
      simp only [List.countP_cons]
      cases hBehind : depthBehind depth t with
      | none =>
          have hClosed := depthBehind_eq_none_iff.mp hBehind
          have hOpen : t.isOpen = false := by
            rw [← Bool.not_eq_true]
            intro hOpen
            rw [Token.isClose_of_isOpen hOpen] at hClosed
            cases hClosed.1
          simp only [Option.bind_none, reduceCtorEq, false_iff]
          rintro ⟨-, -, hNested⟩
          have hFirst := hNested [] List.nil_prefix
          simp [hClosed, hOpen] at hFirst
      | some next =>
          have hNext := depthBehind_eq_some_iff.mp hBehind
          rw [Option.bind_some, ih]
          simp only [List.countP_nil, Nat.zero_le, true_and]
          apply and_congr
          · omega
          · apply forall₂_congr
            intro front _
            omega

theorem balanced_iff_depthAfter
    {body : List Token} :
    Balanced body ↔ depthAfter 0 body = some 0 := by
  rw [depthAfter_eq_some_iff]
  simp only [Nat.zero_add]
  exact ⟨fun h => ⟨h.closed, h.nested⟩, fun h => ⟨h.1, h.2⟩⟩

------------------------------------------------------------
-- References
------------------------------------------------------------

namespace Token

variable {t : Token}

theorem not_brace_of_parenthesis
    (hParenthesis : t.isSymbol (ascii "(") = true) :
    t.isOpen = false ∧ t.isClose = false ∧
      isReferenceFunction t = false ∧ t.kind ≠ .stringLiteral := by
  rcases isSymbol_iff.mp hParenthesis with ⟨hKind, hText⟩
  have hOpen : ascii "(" ≠ ['{'.toUInt8] := by
    decide
  have hClose : ascii "(" ≠ ['}'.toUInt8] := by
    decide
  simp [isOpen, isClose, isSymbol, isReferenceFunction, isKeyword,
    hKind, hText, hOpen, hClose]

theorem not_brace_of_string
    (hString : t.kind = .stringLiteral) :
    t.isOpen = false ∧ t.isClose = false ∧
      isReferenceFunction t = false := by
  simp [isOpen, isClose, isSymbol, isReferenceFunction, isKeyword,
    hString]

theorem not_reference_of_brace
    (hBrace : t.isOpen = true ∨ t.isClose = true) :
    isReferenceFunction t = false ∧ t.isSymbol (ascii "(") = false ∧
      t.kind ≠ .stringLiteral := by
  have hKind : t.kind = .symbol := by
    rcases hBrace with hOpen | hClose
    · exact (isSymbol_iff.mp hOpen).1
    · exact (isSymbol_iff.mp hClose).1
  have hOther : t.isSymbol (ascii "(") = false := by
    rw [← Bool.not_eq_true]
    intro hParenthesis
    have hNot := not_brace_of_parenthesis hParenthesis
    rcases hBrace with hOpen | hClose
    · rw [hNot.1] at hOpen
      cases hOpen
    · rw [hNot.2.1] at hClose
      cases hClose
  simp [isReferenceFunction, isKeyword, hKind, hOther]

end Token

/- How much of a reference ends with a token. -/
def referenceBehind : ReferenceProgress → Token → ReferenceProgress
  | .function, t =>
      if t.isSymbol (ascii "(") then
        .parenthesis
      else if isReferenceFunction t then
        .function
      else
        .nothing
  | _, t =>
      if isReferenceFunction t then .function else .nothing

/- The reference which a token completes, if it does. -/
def referenceAt (progress : ReferenceProgress) (t : Token) :
    List Text :=
  if progress = .parenthesis ∧ t.kind = .stringLiteral then
    [t.text]
  else
    []

/- The references among some tokens, some progress being made. -/
def referencesFrom : ReferenceProgress → List Token → List Text
  | _, [] => []
  | progress, t :: rest =>
      referenceAt progress t ++
        referencesFrom (referenceBehind progress t) rest

/- The tokens of a reference which a progress stands for. -/
inductive Pending : ReferenceProgress → List Token → Prop where
  | nothing :
      Pending .nothing []
  | function {word : Token}
      (hWord : isReferenceFunction word = true) :
      Pending .function [word]
  | parenthesis {word parenthesis : Token}
      (hWord : isReferenceFunction word = true)
      (hParenthesis : parenthesis.isSymbol (ascii "(") = true) :
      Pending .parenthesis [word, parenthesis]

theorem referencesOf_skip
    {t : Token}
    (hWord : isReferenceFunction t = false)
    (rest : List Token) :
    referencesOf (t :: rest) = referencesOf rest := by
  match rest with
  | [] => rfl
  | [_] => rfl
  | _ :: _ :: _ => simp [referencesOf, hWord]

theorem referencesOf_word
    {word t : Token}
    (hOther : t.isSymbol (ascii "(") = false)
    (rest : List Token) :
    referencesOf (word :: t :: rest) = referencesOf (t :: rest) := by
  match rest with
  | [] => rfl
  | _ :: _ => simp [referencesOf, hOther]

theorem referencesOf_parenthesis
    {word parenthesis t : Token}
    (hWord : isReferenceFunction word = true)
    (hParenthesis : parenthesis.isSymbol (ascii "(") = true)
    (rest : List Token) :
    referencesOf (word :: parenthesis :: t :: rest) =
      referenceAt .parenthesis t ++ referencesOf (t :: rest) := by
  have hSkip :=
    referencesOf_skip
      (Token.not_brace_of_parenthesis hParenthesis).2.2.1 (t :: rest)
  by_cases hString : t.kind = .stringLiteral
  · simp [referencesOf, referenceAt, hWord, hParenthesis, hString,
      hSkip]
  · simp [referencesOf, referenceAt, hString, hSkip]

/- The progress remembers what of the tokens is still of use. -/
theorem exists_pending
    {progress : ReferenceProgress}
    {front : List Token}
    (hPending : Pending progress front)
    (t : Token)
    (rest : List Token) :
    ∃ front', Pending (referenceBehind progress t) front' ∧
      referencesOf (front ++ t :: rest) =
        referenceAt progress t ++ referencesOf (front' ++ rest) := by
  have hFresh :
      ∃ front',
        Pending (if isReferenceFunction t then .function else .nothing)
          front' ∧
        referencesOf (t :: rest) = referencesOf (front' ++ rest) := by
    by_cases hWord : isReferenceFunction t = true
    · rw [if_pos hWord]
      exact ⟨[t], .function hWord, rfl⟩
    · rw [if_neg hWord]
      rw [Bool.not_eq_true] at hWord
      exact ⟨[], .nothing, referencesOf_skip hWord rest⟩
  rcases hFresh with ⟨fresh, hFresh, hSame⟩
  cases hPending with
  | nothing =>
      exact ⟨fresh, hFresh, hSame⟩
  | @function word hWord =>
      by_cases hParenthesis : t.isSymbol (ascii "(") = true
      · refine ⟨[word, t], ?_, rfl⟩
        rw [referenceBehind, if_pos hParenthesis]
        exact .parenthesis hWord hParenthesis
      · refine ⟨fresh, ?_, ?_⟩
        · rw [referenceBehind, if_neg hParenthesis]
          exact hFresh
        · rw [Bool.not_eq_true] at hParenthesis
          exact (referencesOf_word hParenthesis rest).trans hSame
  | parenthesis hWord hParenthesis =>
      refine ⟨fresh, hFresh, ?_⟩
      rw [← hSame]
      exact referencesOf_parenthesis hWord hParenthesis rest

theorem referencesFrom_pending
    {progress : ReferenceProgress}
    {front : List Token}
    (hPending : Pending progress front)
    (body : List Token) :
    referencesFrom progress body = referencesOf (front ++ body) := by
  induction body generalizing progress front with
  | nil =>
      cases hPending <;> rfl
  | cons t rest ih =>
      rcases exists_pending hPending t rest with
        ⟨front', hPending', hSame⟩
      rw [referencesFrom, hSame, ih hPending']

/- A reader which remembers progress finds all references. -/
theorem referencesFrom_eq
    (body : List Token) :
    referencesFrom .nothing body = referencesOf body := by
  exact referencesFrom_pending .nothing body

------------------------------------------------------------
-- Blocks
------------------------------------------------------------

namespace CodeReader

variable {input : Text}

theorem plainStep_of_depthBehind
    (input : Text)
    {b : OpenBlock}
    {t : Token}
    {depth : Nat}
    (hDepth : depthBehind b.depth t = some depth) :
    plainStep input b t =
      .more (.block
        { b with
          depth := depth
          reference :=
            if isReferenceFunction t then .function
            else .nothing }) := by
  unfold depthBehind at hDepth
  unfold plainStep
  by_cases hOpen : t.isOpen = true
  · have hWord := (Token.not_reference_of_brace (Or.inl hOpen)).1
    rw [if_pos hOpen] at hDepth ⊢
    cases hDepth
    rw [hWord]
    rfl
  · rw [if_neg hOpen] at hDepth ⊢
    by_cases hClose : t.isClose = true
    · have hWord := (Token.not_reference_of_brace (Or.inr hClose)).1
      rw [if_pos hClose] at hDepth ⊢
      rw [hWord]
      cases hBlock : b.depth with
      | zero =>
          rw [hBlock] at hDepth
          cases hDepth
      | succ d =>
          rw [hBlock] at hDepth
          cases hDepth
          rfl
    · rw [if_neg hClose] at hDepth ⊢
      cases hDepth
      split <;> rfl

/- A token inside a block changes depth, progress and references. -/
theorem step_inside
    (input : Text)
    {b : OpenBlock}
    {t : Token}
    {depth : Nat}
    (hDepth : depthBehind b.depth t = some depth) :
    step input (.block b) t =
      .ok (.more (.block
        { start := b.start
          depth := depth
          reference := referenceBehind b.reference t
          references :=
            TextSet.union b.references
              (referenceAt b.reference t) })) := by
  rw [step, blockStep]
  have hPlain := plainStep_of_depthBehind input hDepth
  cases hProgress : b.reference with
  | nothing =>
      dsimp only
      rw [hPlain]
      rfl
  | function =>
      dsimp only
      by_cases hParenthesis : t.isSymbol (ascii "(") = true
      · have hNot := Token.not_brace_of_parenthesis hParenthesis
        have hSame : b.depth = depth := by
          simpa [depthBehind, hNot] using hDepth
        rw [if_pos hParenthesis, referenceBehind,
          if_pos hParenthesis, ← hSame]
        rfl
      · rw [if_neg hParenthesis, referenceBehind,
          if_neg hParenthesis, hPlain]
        rfl
  | parenthesis =>
      dsimp only
      by_cases hString : t.kind = .stringLiteral
      · have hNot := Token.not_brace_of_string hString
        have hSame : b.depth = depth := by
          simpa [depthBehind, hNot] using hDepth
        have hBehind :
            referenceBehind .parenthesis t = .nothing := by
          simp [referenceBehind, hNot]
        rw [if_pos hString, referenceAt, if_pos ⟨rfl, hString⟩,
          hBehind, ← hSame]
        rfl
      · rw [if_neg hString, referenceAt,
          if_neg (fun h => hString h.2), hPlain]
        rfl

/- The brace which closes the block ends it. -/
theorem step_closing
    {b : OpenBlock}
    {t : Token}
    (hClosing : t.isClose = true)
    (hDepth : b.depth = 0) :
    step input (.block b) t =
      .ok (.done
        { text := slice input b.start.offset t.stop
          references := b.references }) := by
  have hNot := Token.not_reference_of_brace (Or.inr hClosing)
  have hOpen : t.isOpen = false := by
    rw [← Bool.not_eq_true]
    intro hOpen
    rw [Token.isClose_of_isOpen hOpen] at hClosing
    cases hClosing
  have hPlain :
      plainStep input b t =
        .done
          { text := slice input b.start.offset t.stop
            references := b.references } := by
    simp [plainStep, hOpen, hClosing, hDepth]
  rw [step, blockStep, hPlain]
  cases hProgress : b.reference with
  | nothing => rfl
  | function => simp [hNot]
  | parenthesis => simp [hNot]

theorem union_append
    (set : TextSet)
    (xs ys : List Text) :
    TextSet.union set (xs ++ ys) =
      TextSet.union (TextSet.union set xs) ys := by
  exact List.foldl_append

/- The inside of a block is read whatever it is. -/
theorem reads_block
    (input : Text)
    {b : OpenBlock}
    {body : List Token}
    {depth : Nat}
    (hDepth : depthAfter b.depth body = some depth) :
    ∃ progress,
      Reads (step input) (.block b) body
        (.block
          { start := b.start
            depth := depth
            reference := progress
            references :=
              TextSet.union b.references
                (referencesFrom b.reference body) }) := by
  induction body generalizing b with
  | nil =>
      cases hDepth
      exact ⟨b.reference, .nil _⟩
  | cons t rest ih =>
      rw [depthAfter] at hDepth
      rcases Option.bind_eq_some_iff.mp hDepth with
        ⟨next, hBehind, hRest⟩
      have hStep := step_inside input hBehind
      rcases ih (b := ⟨b.start, next, _, _⟩) hRest with
        ⟨progress, hReads⟩
      refine ⟨progress, ?_⟩
      rw [referencesFrom, union_append]
      exact .cons hStep hReads

------------------------------------------------------------
-- Blocks At The Front Of Tokens
------------------------------------------------------------

variable {ending : Except ParseError Token}

theorem reads_opening
    {word opening : Token}
    (hWord : word.isKeyword (ascii "code") = true)
    (hOpening : opening.isOpen = true) :
    Reads (step input) .keyword [word, opening]
      (.block ⟨opening.location, 0, .nothing, []⟩) := by
  have hKeyword :
      step input .keyword word = .ok (.more .brace) := by
    rw [step, if_pos hWord]
  refine .cons hKeyword (.one ?_)
  rw [step, if_pos hOpening]

/- A block which is left is balanced up to its closing brace. -/
theorem exists_body_of_feed
    {b : OpenBlock}
    {tokens : List Token}
    {code : Code}
    {behind : TokenStream}
    (hFeed :
      feed (step input) refuse ending (.block b) tokens =
        .ok (code, behind)) :
    ∃ body closing, tokens = body ++ closing :: behind.tokens ∧
      behind.ending = ending ∧ depthAfter b.depth body = some 0 ∧
      closing.isClose = true := by
  induction tokens generalizing b with
  | nil =>
      exact absurd hFeed (feed_nil_ne_ok _ _)
  | cons t rest ih =>
      rw [feed_cons] at hFeed
      cases hDepth : depthBehind b.depth t with
      | none =>
          rcases depthBehind_eq_none_iff.mp hDepth with
            ⟨hClosing, hZero⟩
          rw [step_closing hClosing hZero] at hFeed
          cases hFeed
          refine ⟨[], t, rfl, rfl, ?_, hClosing⟩
          rw [hZero]
          rfl
      | some depth =>
          rw [step_inside input hDepth] at hFeed
          rcases ih hFeed with
            ⟨body, closing, rfl, hEnding, hBody, hClosing⟩
          refine ⟨t :: body, closing, rfl, hEnding, ?_, hClosing⟩
          rw [depthAfter, hDepth]
          exact hBody

/- A derivable block is read, whatever stands behind it. -/
theorem feed_codeRule
    {tokens : List Token}
    {code : Code}
    (hCode : CodeRule input tokens code)
    (back : List Token) :
    feed (step input) refuse ending .keyword (tokens ++ back) =
      .ok (code, ⟨back, ending⟩) := by
  cases hCode with
  | @intro word opening closing body hWord hOpening hBody hClosing =>
      rcases reads_block input
          (b := ⟨opening.location, 0, .nothing, []⟩)
          (balanced_iff_depthAfter.mp hBody) with
        ⟨progress, hReads⟩
      have hFront := (reads_opening hWord hOpening).append hReads
      have hTokens :
          word :: opening :: (body ++ [closing]) ++ back =
            ([word, opening] ++ body) ++ closing :: back := by
        simp
      rw [hTokens, hFront.feed_append, feed_cons,
        step_closing hClosing rfl, ← referencesFrom_eq]
      rfl

theorem feed_keyword_eq_ok_iff
    {tokens : List Token}
    {code : Code}
    {behind : TokenStream} :
    feed (step input) refuse ending .keyword tokens =
        .ok (code, behind) ↔
      ∃ front, tokens = front ++ behind.tokens ∧
        behind.ending = ending ∧ CodeRule input front code := by
  constructor
  · intro hFeed
    have hHead :
        ∃ word opening rest, tokens = word :: opening :: rest ∧
          word.isKeyword (ascii "code") = true ∧
          opening.isOpen = true ∧
          feed (step input) refuse ending
              (.block ⟨opening.location, 0, .nothing, []⟩) rest =
            .ok (code, behind) := by
      rcases exists_step_of_feed hFeed with ⟨word, tokens, rfl, hStep⟩
      rw [step] at hStep
      by_cases hWord : word.isKeyword (ascii "code") = true
      · rw [if_pos hWord] at hStep
        rcases exists_step_of_feed hStep with
          ⟨opening, rest, rfl, hNext⟩
        rw [step] at hNext
        by_cases hOpening : opening.isOpen = true
        · rw [if_pos hOpening] at hNext
          exact ⟨word, opening, rest, rfl, hWord, hOpening, hNext⟩
        · rw [if_neg hOpening] at hNext
          cases hNext
      · rw [if_neg hWord] at hStep
        cases hStep
    rcases hHead with
      ⟨word, opening, rest, rfl, hWord, hOpening, hBlock⟩
    rcases exists_body_of_feed hBlock with
      ⟨body, closing, rfl, hEnding, hDepth, hClosing⟩
    have hCode :
        CodeRule input (word :: opening :: (body ++ [closing])) _ :=
      .intro hWord hOpening (balanced_iff_depthAfter.mpr hDepth)
        hClosing
    have hTokens :
        word :: opening :: (body ++ closing :: behind.tokens) =
          word :: opening :: (body ++ [closing]) ++ behind.tokens := by
      simp
    rw [hTokens, feed_codeRule hCode, Except.ok.injEq, Prod.mk.injEq]
      at hFeed
    rw [hFeed.1] at hCode
    exact ⟨_, hTokens, hEnding, hCode⟩
  · rintro ⟨front, rfl, rfl, hCode⟩
    exact feed_codeRule hCode behind.tokens

end CodeReader

end Yul

end ContractLinker
