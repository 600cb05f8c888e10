import ContractLinker.Proofs.Yul.Reached

/-
  Errors are reported at the first fault. A reader which has
  come to a place has found no fault in front of it, and the
  token or the error at which it stops is at fault; there is
  one first fault of an input at most.

  Key definitions include:
    * `Yul.ObjectReader.blockStart?`

  Main statements:
    * `Yul.Faultless.of_reads`
    * `Yul.FirstFault.unique`
    * `Yul.Object.firstFault_of_parse_error`
    * `Yul.Object.firstFault_iff_of_parse`
-/

------------------------------------------------------------
-- Faultless Tokens
------------------------------------------------------------

namespace ContractLinker

namespace Yul

open ObjectReader (step)

variable {input : Text}

/- What a token takes a reader to is a place again. -/
theorem Reached.of_reads
    {front back : List Token}
    {first last : ObjectReader}
    (hReads : Reads (step input) first back last)
    (hReached : Reached input front first) :
    Reached input (front ++ back) last := by
  induction hReads generalizing front with
  | nil state =>
      rw [List.append_nil]
      exact hReached
  | @cons state next last t rest hStep _ ih =>
      have hOutcome := hReached.outcome t
      rw [hStep] at hOutcome
      cases hOutcome with
      | more hNext =>
          rw [List.append_cons]
          exact ih hNext

/- The places of a reader of an input. -/
theorem reached_of_reads
    {tokens : List Token}
    {reader : ObjectReader}
    (hReads : Reads (step input) (readerOf []) tokens reader) :
    Reached input tokens reader := by
  exact .of_reads hReads (.between .nil)

/- Tokens which are read are faultless. -/
theorem Faultless.of_reads
    {tokens : List Token}
    {reader : ObjectReader}
    (hReads : Reads (step input) (readerOf []) tokens reader)
    (hInside : Inside tokens) :
    Faultless input tokens := by
  constructor
  · exact (reached_of_reads hReads).viable hInside
  · intro front word hFront
    exact ObjectReader.not_misplaced_of_reads hReads hFront

theorem Fails.exists_reads
    {first : ObjectReader}
    {tokens : List Token}
    {e : ParseError}
    (hFails : Fails (step input) first tokens e) :
    ∃ front t back last, tokens = front ++ t :: back ∧
      Reads (step input) first front last ∧
      step input last t = .error e := by
  induction hFails with
  | @here state t rest e hStep =>
      exact ⟨[], t, rest, state, rfl, .nil state, hStep⟩
  | @later state next t rest e hStep _ ih =>
      rcases ih with ⟨front, u, back, last, rfl, hReads, hError⟩
      exact ⟨t :: front, u, back, last, rfl, .cons hStep hReads, hError⟩

/- In faultless tokens no runtime object is reported. -/
theorem Faultless.not_failsMisplaced
    {tokens : List Token}
    (hFaultless : Faultless input tokens) :
    ¬ FailsMisplaced input (readerOf []) tokens := by
  rintro ⟨e, hFault, hFails⟩
  rcases hFails.exists_reads with
    ⟨front, t, back, last, rfl, hReads, hError⟩
  have hOutcome := (reached_of_reads hReads).outcome t
  rw [hError] at hOutcome
  cases hOutcome with
  | refused =>
      cases hFault
  | misplaced hRuntime _ =>
      have hPrefix : front ++ [t] <+: front ++ t :: back :=
        ⟨back, by simp⟩
      exact hFaultless.placed _ _ hPrefix hRuntime

------------------------------------------------------------
-- Blocks Which Are Not Closed
------------------------------------------------------------

namespace ObjectReader

/- Where the block of code begins which a reader is inside of. -/
def blockStart? : ObjectReader → Option Location
  | .coding _ _ _ (.block b) => some b.start
  | _ => none

/- The end of an input is refused there, or where it is. -/
theorem location_refuse
    (reader : ObjectReader)
    (t : Token) :
    (refuse reader t).location =
      reader.blockStart?.getD t.location := by
  cases reader with
  | coding outer start name reader => cases reader <;> rfl
  | _ => rfl

end ObjectReader

theorem Reached.insideBlock
    {tokens : List Token}
    {reader : ObjectReader}
    {place : Location}
    (hReached : Reached input tokens reader)
    (hBlock : reader.blockStart? = some place) :
    ∃ brace, InsideBlock input tokens brace ∧
      brace.location = place := by
  cases hReached with
  | @between _ opened _ => cases opened <;> cases hBlock
  | coding hOuter hWord hName hOpening hFront =>
      cases hFront with
      | keyword => cases hBlock
      | brace _ => cases hBlock
      | @block code brace body b hCode hBrace hDepth hReads =>
          have hStart := (fields_of_reads hDepth hReads).1
          have hNested := (depthAfter_eq_some_iff.mp hDepth).2
          simp only [Nat.zero_add] at hNested
          refine ⟨brace, ?_, ?_⟩
          · exact .intro hOuter hWord hName hOpening hCode hBrace hNested
          · rw [← hStart]
            exact Option.some.inj hBlock
  | naming _ _ => cases hBlock
  | opening _ _ _ => cases hBlock
  | dataNaming _ _ => cases hBlock
  | dataContent _ _ _ => cases hBlock

/- Objects which are not closed are read, if they are faultless. -/
theorem Enclosing.reads
    {tokens back : List Token}
    {opened : List Opened}
    (hEnclosing : Enclosing input tokens opened)
    (hFaultless : Faultless input (tokens ++ back)) :
    Reads (step input) (readerOf []) tokens (readerOf opened) := by
  rcases ObjectReader.reads_enclosing hEnclosing with hReads | hFails
  · exact hReads
  · exact absurd (hFails.append back) hFaultless.not_failsMisplaced

/- So is the front of a block of code. -/
theorem InsideBlock.exists_reads
    {tokens : List Token}
    {brace : Token}
    (hInside : InsideBlock input tokens brace)
    (hFaultless : Faultless input tokens) :
    ∃ reader, Reads (step input) (readerOf []) tokens reader ∧
      reader.blockStart? = some brace.location := by
  cases hInside with
  | @intro tokens body opened word name opening code brace
      hOuter hWord hName hOpening hCode hBrace hBody =>
      have hDepth :
          depthAfter (ObjectReader.openBlock brace).depth body =
            some (body.countP Token.isOpen -
              body.countP Token.isClose) := by
        have hWhole := hBody body (List.prefix_refl body)
        rw [depthAfter_eq_some_iff]
        simp only [ObjectReader.openBlock, Nat.zero_add]
        exact ⟨by omega, hBody⟩
      rcases CodeReader.reads_block input hDepth with
        ⟨progress, hBlock⟩
      have hOuterReads := hOuter.reads hFaultless
      have hInner :=
        @ObjectReader.reads_coding (around opened) input word.location
          name.text _ _ _ hBlock
      have hCoding :=
        (ObjectReader.reads_code hCode hBrace word.location
          name.text).append hInner
      have hHead :=
        (ObjectReader.reads_head hName hOpening word.location).append
          hCoding
      have hObject :=
        Reads.cons (ObjectReader.step_readerOf hWord) hHead
      exact ⟨_, hOuterReads.append hObject, rfl⟩

------------------------------------------------------------
-- One First Fault
------------------------------------------------------------

/- The object which is misplaced is the innermost one. -/
theorem Misplaced.exists_enclosing
    {front : List Token}
    {t word : Token}
    (hMisplaced : Misplaced input (front ++ [t]) word) :
    t.isClose = true ∧ ∃ child opened,
      Enclosing input front (⟨word, child⟩ :: opened) := by
  generalize hTokens : front ++ [t] = tokens at hMisplaced
  cases hMisplaced with
  | intro hOuter hObject _ _ =>
      rcases hObject.exists_open with
        ⟨inner, closing, hInner, hClosing, hOpen⟩
      rw [hInner, ← List.append_assoc] at hTokens
      rcases List.append_inj' hTokens rfl with ⟨rfl, hLast⟩
      cases hLast
      exact ⟨hClosing, _, _, .cons hOuter hOpen⟩

/- A runtime object which is misplaced is a part of a sentence. -/
theorem Misplaced.viable
    {front : List Token}
    {t word : Token}
    (hMisplaced : Misplaced input (front ++ [t]) word)
    (hInside : Inside front) :
    Viable input (front ++ [t]) := by
  have hKind : t.kind = .symbol :=
    (Token.isSymbol_iff.mp hMisplaced.exists_enclosing.1).1
  have hWhole : Inside (front ++ [t]) :=
    hInside.append (by simp [hKind])
  generalize front ++ [t] = tokens at hMisplaced hWhole
  cases hMisplaced with
  | intro hOuter hObject _ _ => exact hOuter.viable_object hObject hWhole

/- Faultless tokens go on with the answer behind them. -/
theorem FaultBehind.not_faultless
    {front rest : List Token}
    {t : Token}
    {place : Location}
    (hFault : FaultBehind input front (.ok t) place) :
    ¬ Faultless input (front ++ t :: rest) := by
  intro hFaultless
  rw [List.append_cons] at hFaultless
  cases hFault with
  | token hToken _ => exact hToken hFaultless.viable.of_append
  | block hToken _ _ => exact hToken hFaultless.viable.of_append
  | misplaced hRuntime =>
      exact hFaultless.placed _ _ ⟨rest, rfl⟩ hRuntime

theorem FaultBehind.unique
    {front : List Token}
    {answer : Except ParseError Token}
    {place place' : Location}
    (hFaultless : Faultless input front)
    (hInside : Inside front)
    (hFault : FaultBehind input front answer place)
    (hFault' : FaultBehind input front answer place') :
    place = place' := by
  cases hFault with
  | lexical =>
      cases hFault'
      rfl
  | token hToken hOutside =>
      cases hFault' with
      | token _ _ =>
          rfl
      | block _ hEnd hBlock =>
          exact absurd hBlock (hOutside hEnd _)
      | misplaced hRuntime =>
          exact absurd (hRuntime.viable hInside) hToken
  | block hToken hEnd hBlock =>
      cases hFault' with
      | token _ hOutside =>
          exact absurd hBlock (hOutside hEnd _)
      | block _ _ hBlock' =>
          rcases hBlock.exists_reads hFaultless with
            ⟨reader, hReads, hStart⟩
          rcases hBlock'.exists_reads hFaultless with
            ⟨reader', hReads', hStart'⟩
          rw [← hReads.unique hReads', hStart] at hStart'
          exact Option.some.inj hStart'
      | misplaced hRuntime =>
          exact absurd (hRuntime.viable hInside) hToken
  | misplaced hRuntime =>
      cases hFault' with
      | token hToken _ =>
          exact absurd (hRuntime.viable hInside) hToken
      | block hToken _ _ =>
          exact absurd (hRuntime.viable hInside) hToken
      | misplaced hRuntime' =>
          rcases hRuntime.exists_enclosing with
            ⟨-, child, opened, hOpen⟩
          rcases hRuntime'.exists_enclosing with
            ⟨-, child', opened', hOpen'⟩
          rw [← List.append_nil front] at hFaultless
          have hSame :=
            (hOpen.reads hFaultless).unique (hOpen'.reads hFaultless)
          exact congrArg Draft.start (ObjectReader.items.inj hSame).2

/- There is one first fault at most. -/
theorem FirstFault.unique
    {tokens : List Token}
    {ending : Except ParseError Token}
    {place place' : Location}
    (hInside : Inside tokens)
    (hFault : FirstFault input tokens ending place)
    (hFault' : FirstFault input tokens ending place') :
    place = place' := by
  rcases hFault with ⟨hTokens, hFront, hHere⟩
  rcases hFault' with ⟨hTokens', hFront', hHere'⟩
  have hInner := hInside
  rw [hTokens] at hTokens' hInner
  rcases List.append_eq_append_iff.mp hTokens' with
    ⟨middle, rfl, rfl⟩ | ⟨middle, rfl, rfl⟩
  · cases middle with
    | nil =>
        rw [List.append_nil] at hFront' hHere'
        exact hHere.unique hFront hInner.of_append hHere'
    | cons t middle => exact absurd hFront' hHere.not_faultless
  · cases middle with
    | nil =>
        rw [List.append_nil] at hFront hHere hInner
        exact hHere.unique hFront' hInner.of_append hHere'
    | cons t middle => exact absurd hFront hHere'.not_faultless

------------------------------------------------------------
-- Errors
------------------------------------------------------------

/- A reader takes all tokens, or there is one which stops it. -/
theorem reads_or_stops
    (input : Text)
    (state : ObjectReader)
    (tokens : List Token) :
    (∃ last, Reads (step input) state tokens last) ∨
    ∃ front t back last, tokens = front ++ t :: back ∧
      Reads (step input) state front last ∧
      ∀ next, step input last t ≠ .ok (.more next) := by
  induction tokens generalizing state with
  | nil =>
      exact Or.inl ⟨state, .nil state⟩
  | cons t tokens ih =>
      by_cases hMore : ∃ next, step input state t = .ok (.more next)
      · rcases hMore with ⟨next, hStep⟩
        rcases ih next with
          ⟨last, hReads⟩ |
          ⟨front, u, back, last, rfl, hReads, hStops⟩
        · exact Or.inl ⟨last, .cons hStep hReads⟩
        · exact Or.inr
            ⟨t :: front, u, back, last, rfl, .cons hStep hReads, hStops⟩
      · rw [not_exists] at hMore
        exact Or.inr ⟨[], t, tokens, state, rfl, .nil state, hMore⟩

namespace Lexer

/- The tokens which a lexer gives are not the end, the last one is. -/
theorem Emits.inside
    {l : Lexer}
    {tokens : List Token}
    {ending : Except ParseError Token}
    (hEmits : l.Emits tokens ending) :
    Inside tokens ∧ ∀ t, ending = .ok t → t.kind = .endOfFile := by
  induction hEmits with
  | token _ hKind _ ih =>
      exact ⟨inside_cons.mpr ⟨hKind, ih.1⟩, ih.2⟩
  | finish _ hKind =>
      refine ⟨inside_nil, ?_⟩
      rintro t ⟨⟩
      exact hKind
  | fault _ =>
      refine ⟨inside_nil, ?_⟩
      rintro t ⟨⟩

end Lexer

variable {tokens : List Token} {ending : Except ParseError Token}

/- The end of the input, or a lexical fault, where more is to come. -/
theorem FirstFault.of_reads
    {reader : ObjectReader}
    {e : ParseError}
    (hReads : Reads (step input) (readerOf []) tokens reader)
    (hInside : Inside tokens)
    (hEnd : ∀ t, ending = .ok t → t.kind = .endOfFile)
    (hRun : ObjectReader.run input ending reader [] = .error e) :
    FirstFault input tokens ending e.location := by
  have hFaultless := Faultless.of_reads hReads hInside
  refine .intro (List.append_nil tokens).symm hFaultless ?_
  cases ending with
  | error e' =>
      cases hRun
      exact .lexical
  | ok t =>
      cases hRun
      have hKind := hEnd t rfl
      have hToken := ObjectReader.not_viable_of_reads hReads hKind
      rw [ObjectReader.location_refuse]
      cases hBlock : reader.blockStart? with
      | none =>
          refine .token hToken ?_
          intro _ brace hBrace
          rcases hBrace.exists_reads hFaultless with
            ⟨reader', hReads', hStart⟩
          rw [← hReads.unique hReads', hBlock] at hStart
          cases hStart
      | some place =>
          rcases (reached_of_reads hReads).insideBlock hBlock with
            ⟨brace, hBrace, rfl⟩
          exact .block hToken hKind hBrace

/- A token at which a reader reports an error. -/
theorem FirstFault.of_step
    {front back : List Token}
    {t : Token}
    {reader : ObjectReader}
    {e : ParseError}
    (hReads : Reads (step input) (readerOf []) front reader)
    (hInside : Inside (front ++ t :: back))
    (hStep : step input reader t = .error e) :
    FirstFault input (front ++ t :: back) ending e.location := by
  have hFaultless := Faultless.of_reads hReads hInside.of_append
  refine .intro rfl hFaultless ?_
  have hKind : t.kind ≠ .endOfFile := hInside t (by simp)
  have hOutcome := (reached_of_reads hReads).outcome t
  rw [hStep] at hOutcome
  cases hOutcome with
  | refused =>
      refine .token ?_ (fun hEnd => absurd hEnd hKind)
      exact ObjectReader.not_viable_of_refused hReads hStep rfl hKind
  | misplaced hRuntime hPlace =>
      rw [hPlace]
      exact .misplaced hRuntime

/- The tokens of an object which has been read are faultless. -/
theorem Faultless.of_done
    {front : List Token}
    {t : Token}
    {reader : ObjectReader}
    {o : Object}
    {tree : ObjectTree}
    (hReads : Reads (step input) (readerOf []) front reader)
    (hStep : step input reader t = .ok (.done o))
    (hObject : ObjectRule input (front ++ [t]) tree)
    (hInside : Inside (front ++ [t])) :
    Faultless input (front ++ [t]) := by
  constructor
  · exact Enclosing.nil.viable_object hObject hInside
  · intro part word hPart hMisplaced
    rcases hPart with ⟨back, hTokens⟩
    rcases ObjectReader.fails_misplaced hMisplaced with ⟨e, -, hFails⟩
    have hWhole := hFails.append back
    rw [hTokens] at hWhole
    have hRun :
        ObjectReader.run input (.error e) (readerOf []) (front ++ [t]) =
          .ok (o, ⟨[], .error e⟩) := by
      rw [ObjectReader.run_append hReads, ObjectReader.run, feed_cons,
        hStep]
      rfl
    rw [ObjectReader.run, hWhole.feed_eq] at hRun
    cases hRun

/- No token follows an object in a sentence. -/
theorem ObjectRule.not_viable_append
    {front : List Token}
    {t : Token}
    {tree : ObjectTree}
    (hObject : ObjectRule input front tree)
    (hKind : t.kind ≠ .endOfFile) :
    ¬ Viable input (front ++ [t]) := by
  rintro ⟨rest, hSentence⟩
  rw [List.append_assoc] at hSentence
  rcases hSentence.object_cases with
    ⟨-, back, whole, hWhole⟩ | ⟨hEnd, -⟩
  · have hSame := List.append_nil (front ++ t :: back)
    have hRest := ObjectRule.unique_append whole hWhole hObject hSame
    cases hRest.2
  · exact hKind hEnd

namespace Object

/- An input is rejected while an object is read, or behind it. -/
theorem parse_error_cases
    {e : ParseError}
    (hEmits : (Lexer.ofText input).Emits tokens ending)
    (hParse : parse input = .error e) :
    ObjectReader.run input ending (readerOf []) tokens = .error e ∨
    ∃ o back,
      ObjectReader.run input ending (readerOf []) tokens =
        .ok (o, ⟨back, ending⟩) ∧
      ((∃ t rest, back = t :: rest ∧ e = unexpected .endOfInput t) ∨
        (back = [] ∧ ending = .error e)) := by
  rcases emits_iff_stream.mp hEmits with ⟨rfl, rfl⟩
  unfold parse at hParse
  cases hFront : parseFront none input (.ofText input) with
  | error e' =>
      rw [hFront] at hParse
      cases hParse
      exact Or.inl hFront
  | ok result =>
      rcases result with ⟨o, back, last⟩
      rcases ObjectReader.run_keyword_eq_ok_iff.mp hFront with
        ⟨_, _, -, hLast, -⟩
      have hRun := hFront
      dsimp only at hLast
      rw [hLast] at hRun
      refine Or.inr ⟨o, back, hRun, ?_⟩
      rw [hFront] at hParse
      cases back with
      | cons t rest =>
          cases hParse
          exact Or.inl ⟨t, rest, rfl, rfl⟩
      | nil =>
          refine Or.inr ⟨rfl, ?_⟩
          rw [← hLast]
          cases last with
          | error e' =>
              cases hParse
              rfl
          | ok final =>
              cases hParse

/- Behind an object there is nothing but the end of the input. -/
theorem firstFault_of_done
    {front back : List Token}
    {t : Token}
    {reader : ObjectReader}
    {o : Object}
    {e : ParseError}
    (hReads : Reads (step input) (readerOf []) front reader)
    (hInside : Inside (front ++ t :: back))
    (hStep : step input reader t = .ok (.done o))
    (hBehind :
      (∃ u rest, back = u :: rest ∧ e = unexpected .endOfInput u) ∨
        (back = [] ∧ ending = .error e)) :
    FirstFault input (front ++ t :: back) ending e.location := by
  have hOutcome := (reached_of_reads hReads).outcome t
  rw [hStep] at hOutcome
  rw [List.append_cons] at hInside ⊢
  cases hOutcome with
  | done hObject =>
      have hFaultless :=
        Faultless.of_done hReads hStep hObject hInside.of_append
      refine .intro rfl hFaultless ?_
      rcases hBehind with ⟨u, rest, rfl, rfl⟩ | ⟨rfl, rfl⟩
      · have hKind : u.kind ≠ .endOfFile := hInside u (by simp)
        exact .token (hObject.not_viable_append hKind)
          (fun hEnd => absurd hEnd hKind)
      · exact .lexical

theorem firstFault_of_parse_error
    {e : ParseError}
    (hEmits : (Lexer.ofText input).Emits tokens ending)
    (hParse : parse input = .error e) :
    FirstFault input tokens ending e.location := by
  rcases hEmits.inside with ⟨hInside, hEnd⟩
  have hCases := parse_error_cases hEmits hParse
  rcases reads_or_stops input (readerOf []) tokens with
    ⟨reader, hReads⟩ | ⟨front, t, back, reader, rfl, hReads, hStops⟩
  · rw [← List.append_nil tokens, ObjectReader.run_append hReads]
      at hCases
    rcases hCases with hRun | ⟨o, rest, hRun, -⟩
    · exact .of_reads hReads hInside hEnd hRun
    · exact absurd hRun (feed_nil_ne_ok _ _)
  · rw [ObjectReader.run_append hReads, ObjectReader.run, feed_cons]
      at hCases
    cases hStep : step input reader t with
    | error e' =>
        rw [hStep] at hCases
        rcases hCases with hRun | ⟨o, rest, hRun, -⟩
        · cases hRun
          exact .of_step hReads hInside hStep
        · cases hRun
    | ok progress =>
        rw [hStep] at hCases
        cases progress with
        | more next =>
            exact absurd hStep (hStops next)
        | done o =>
            rcases hCases with hRun | ⟨_, _, hRun, hBehind⟩
            · cases hRun
            · cases hRun
              exact firstFault_of_done hReads hInside hStep hBehind

/-
  The error of an input which is rejected stands at the first
  fault of it, and its message begins with the line and the
  column of that place.
-/
theorem firstFault_iff_of_parse
    {e : ParseError}
    (hEmits : (Lexer.ofText input).Emits tokens ending)
    (hParse : parse input = .error e) :
    (∀ place, FirstFault input tokens ending place ↔
      place = e.location) ∧
    ∃ text, e.message =
      Decimal.ofNat e.location.line ++ ':'.toUInt8 ::
        (Decimal.ofNat e.location.column ++ ascii ": " ++ text) := by
  have hFault := firstFault_of_parse_error hEmits hParse
  constructor
  · intro place
    constructor
    · intro hOther
      exact hOther.unique hEmits.inside.1 hFault
    · rintro rfl
      exact hFault
  · exact ⟨e.fault.text, rfl⟩

/-
  An object with two runtime objects, which is not closed and
  has a byte behind it with which no token begins.
-/
def repeatedSource : Text :=
  ascii "object 'A' \x7b\n code \x7b \x7d\n " ++
    ascii "object 'A_deployed' \x7b code \x7b \x7d \x7d\n " ++
    ascii "object 'A_deployed' \x7b code \x7b \x7d \x7d\n;"

theorem firstFault_repeatedSource :
    ∃ tokens ending,
      (Lexer.ofText repeatedSource).Emits tokens ending ∧
      (∀ place, FirstFault repeatedSource tokens ending place ↔
        place = ⟨4, 2, 58⟩) ∧
      ∃ e text, parse repeatedSource = .error e ∧
        e.message = ascii "4:2: " ++ text := by
  have hError :
      (((parse repeatedSource).map fun _ => none).tryCatch
          fun e => .ok (some e)).toOption =
        some
          (some ⟨⟨4, 2, 58⟩, .duplicateRuntime (ascii "A_deployed")⟩) := by
    decide +kernel
  have hEmits := TokenStream.emits_ofText repeatedSource
  cases hParse : parse repeatedSource with
  | error e =>
      rw [hParse] at hError
      cases hError
      rcases firstFault_iff_of_parse hEmits hParse with
        ⟨hPlace, text, hText⟩
      exact ⟨_, _, hEmits, hPlace, _, text, rfl, hText⟩
  | ok o =>
      rw [hParse] at hError
      cases hError

end Object

end Yul

end ContractLinker
