import ContractLinker.Proofs.Yul.Tokens

/-
  Calls on a lexer. To peek, a lexer scans ahead and keeps
  the token, so that its cursor stands behind a token which
  has not been given away. It answers all the same as a
  scanner does which keeps nothing and moves on only when it
  is asked for the next token. What it gives away is thus
  what calls for the next token alone would get.

  Key definitions include:
    * `Yul.Call`
    * `Yul.CallLog`
    * `Yul.UpToFailure`
    * `Yul.Lexer.answers`
    * `Yul.Lexer.nexts`
    * `Yul.Lexer.StandsAt`
    * `Yul.Cursor.answers`
    * `Yul.Transparent`

  Main statements:
    * `Yul.Cursor.scan_of_endOfFile`
    * `Yul.Lexer.answers_of_standsAt`
    * `Yul.Lexer.Emits.nexts_eq`
    * `Yul.Cursor.exists_answers_of_append`
    * `Yul.Lexer.transparent_answers`
-/

------------------------------------------------------------
-- Calls
------------------------------------------------------------

namespace ContractLinker

namespace Yul

/- What a lexer can be asked. -/
inductive Call where
  | peek
  | next
deriving DecidableEq, Repr

/- Calls in the order in which they were made, with their outcomes. -/
abbrev CallLog :=
  List (Call × Except ParseError Token)

/- The outcomes of the calls for the next token. -/
def taken (log : CallLog) : List (Except ParseError Token) :=
  (log.filter fun entry => entry.1 = .next).map Prod.snd

/-
  A log has all calls, or those up to the first one which
  failed.
-/
inductive UpToFailure : List Call → CallLog → Prop where
  | nil : UpToFailure [] []
  | failed (call : Call) (calls : List Call) (e : ParseError) :
      UpToFailure (call :: calls) [(call, .error e)]
  | answered {calls : List Call} {log : CallLog}
      (call : Call) (t : Token)
      (hRest : UpToFailure calls log) :
      UpToFailure (call :: calls) ((call, .ok t) :: log)

namespace Lexer

/- The answer to a call, and the lexer after it. -/
def answer (l : Lexer) :
    Call → Except ParseError Token × Lexer
  | .peek => l.peek
  | .next => l.next

/- Make calls until one fails. -/
def answers (l : Lexer) : List Call → CallLog
  | [] => []
  | call :: calls =>
      match l.answer call with
      | (.ok t, l') => (call, .ok t) :: answers l' calls
      | (.error e, _) => [(call, .error e)]

/- Ask for the next token a number of times, until a call fails. -/
def nexts (l : Lexer) : Nat → List (Except ParseError Token)
  | 0 => []
  | n + 1 =>
      match l.next with
      | (.ok t, l') => .ok t :: nexts l' n
      | (.error e, _) => [.error e]

end Lexer

/-
  Peeks do not show in a log of calls on the lexer of an
  input. What was taken is the front of what calls for the
  next token alone get. A peek gets the token which all peeks
  behind it get, and then the call which takes it. Each call,
  whether it succeeds or fails, gets what a call for the next
  token would get in its place, and all calls behind one that
  got the end of the input get the same end.
-/
structure Transparent (s : Text) (calls : List Call)
    (log : CallLog) : Prop where
  made : UpToFailure calls log
  inOrder : ∀ n, (taken log).length ≤ n →
    taken log <+: (Lexer.ofText s).nexts n
  peeked : ∀ {front back : CallLog} {t : Token} {k : Nat}
    {more : List Call},
    log = front ++ (.peek, .ok t) :: back →
    calls.drop (front.length + 1) =
      List.replicate k .peek ++ .next :: more →
    List.replicate k (.peek, .ok t) ++ [(.next, .ok t)] <+: back
  inPlace : ∀ {front back : CallLog} {call : Call}
    {outcome : Except ParseError Token},
    log = front ++ (call, outcome) :: back →
    (Lexer.ofText s).nexts ((taken front).length + 1) =
      taken front ++ [outcome]
  ended : ∀ {front back : CallLog} {call : Call} {t : Token},
    log = front ++ (call, .ok t) :: back →
    t.kind = .endOfFile →
    back =
      (calls.drop (front.length + 1)).map fun call => (call, .ok t)

theorem taken_cons_peek
    (outcome : Except ParseError Token)
    (log : CallLog) :
    taken ((.peek, outcome) :: log) = taken log := by
  rfl

theorem taken_cons_next
    (outcome : Except ParseError Token)
    (log : CallLog) :
    taken ((.next, outcome) :: log) = outcome :: taken log := by
  rfl

------------------------------------------------------------
-- Scanners Without A Token At Hand
------------------------------------------------------------

variable {c c' : Cursor} {t : Token} {e : ParseError}

namespace Cursor

/- The cursor after a call: a peek stays where it was. -/
def moved (c c' : Cursor) : Call → Cursor
  | .peek => c
  | .next => c'

/- The answers when each call scans, and no token is kept. -/
def answers (c : Cursor) : List Call → CallLog
  | [] => []
  | call :: calls =>
      match c.scan with
      | (.ok t, c') => (call, .ok t) :: answers (moved c c' call) calls
      | (.error e, _) => [(call, .error e)]

theorem scan_cases
    (c : Cursor) :
    (∃ t c', c.scan = (.ok t, c')) ∨
      ∃ e c', c.scan = (.error e, c') := by
  rcases hScan : c.scan with ⟨e | t, c'⟩
  · exact Or.inr ⟨e, c', rfl⟩
  · exact Or.inl ⟨t, c', rfl⟩

theorem answers_cons_of_ok
    (hScan : c.scan = (.ok t, c'))
    (call : Call)
    (calls : List Call) :
    c.answers (call :: calls) =
      (call, .ok t) :: (moved c c' call).answers calls := by
  rw [answers, hScan]

theorem answers_cons_of_error
    (hScan : c.scan = (.error e, c'))
    (call : Call)
    (calls : List Call) :
    c.answers (call :: calls) = [(call, .error e)] := by
  rw [answers, hScan]

theorem upToFailure_answers
    (c : Cursor)
    (calls : List Call) :
    UpToFailure calls (c.answers calls) := by
  induction calls generalizing c with
  | nil => exact .nil
  | cons call calls ih =>
      rcases scan_cases c with ⟨t, c', hScan⟩ | ⟨e, c', hScan⟩
      · rw [answers_cons_of_ok hScan]
        exact .answered call t (ih _)
      · rw [answers_cons_of_error hScan]
        exact .failed call calls e

/- Peeks at one place all see the token there. -/
theorem answers_replicate_peek
    (hScan : c.scan = (.ok t, c'))
    (k : Nat)
    (calls : List Call) :
    c.answers (List.replicate k .peek ++ calls) =
      List.replicate k (.peek, .ok t) ++ c.answers calls := by
  induction k with
  | zero => rfl
  | succ k ih =>
      rw [List.replicate_succ, List.cons_append,
        answers_cons_of_ok hScan, moved, ih]
      rfl

------------------------------------------------------------
-- The End Of An Input
------------------------------------------------------------

/- Behind the end of an input the same end is found again. -/
theorem scan_of_endOfFile
    (hScan : c.scan = (.ok t, c'))
    (hKind : t.kind = .endOfFile) :
    c'.scan = (.ok t, c') := by
  have hBegins := (gapCut_gap c.rest).stops
  unfold scan at hScan
  dsimp only at hScan
  cases hRest : (gap c.rest).2 with
  | nil =>
      rw [hRest] at hScan
      cases hScan
      rfl
  | cons b s =>
      rw [hRest] at hScan hBegins
      dsimp only at hScan
      cases hLexeme : lexeme b s with
      | token kind text span rest =>
          rw [hLexeme] at hScan
          cases hScan
          exact absurd hKind (kind_ne_of_lexeme hBegins hLexeme)
      | faulty fault before span rest =>
          rw [hLexeme] at hScan
          cases hScan

/- There every call gets the end, wherever it leaves the cursor. -/
theorem answers_of_ended
    (hScan : c.scan = (.ok t, c'))
    (hEnd : c'.scan = (.ok t, c'))
    (calls : List Call) :
    c.answers calls = calls.map fun call => (call, .ok t) := by
  induction calls generalizing c with
  | nil => rfl
  | cons call calls ih =>
      have hMoved : (moved c c' call).scan = (.ok t, c') := by
        cases call with
        | peek => exact hScan
        | next => exact hEnd
      rw [answers_cons_of_ok hScan, ih hMoved, List.map_cons]

end Cursor

------------------------------------------------------------
-- Lexers Answer As Scanners Do
------------------------------------------------------------

namespace Lexer

/-
  A lexer stands where the scan finds its next token: at its
  cursor, or in front of the token which it keeps.
-/
inductive StandsAt : Lexer → Cursor → Prop where
  | plain (c : Cursor) :
      StandsAt ⟨c, none⟩ c
  | ahead {c c' : Cursor} {t : Token}
      (hScan : c.scan = (.ok t, c')) :
      StandsAt ⟨c', some t⟩ c

variable {l : Lexer}

/- A call gets the token, and the lexer stands where the scanner does. -/
theorem StandsAt.answer_of_ok
    (hStands : StandsAt l c)
    (hScan : c.scan = (.ok t, c'))
    (call : Call) :
    ∃ l', l.answer call = (.ok t, l') ∧
      StandsAt l' (Cursor.moved c c' call) := by
  cases hStands with
  | plain =>
      cases call with
      | peek =>
          refine ⟨⟨c', some t⟩, ?_, .ahead hScan⟩
          rw [answer, peek, hScan]
      | next =>
          exact ⟨⟨c', none⟩, next_of_scan hScan, .plain c'⟩
  | ahead hKept =>
      rw [hKept] at hScan
      cases hScan
      cases call with
      | peek => exact ⟨_, rfl, .ahead hKept⟩
      | next => exact ⟨_, rfl, .plain c'⟩

/- A token is kept only where the scan found one. -/
theorem StandsAt.answer_of_error
    (hStands : StandsAt l c)
    (hScan : c.scan = (.error e, c'))
    (call : Call) :
    ∃ l', l.answer call = (.error e, l') := by
  cases hStands with
  | plain =>
      cases call with
      | peek =>
          refine ⟨⟨c', none⟩, ?_⟩
          rw [answer, peek, hScan]
      | next =>
          exact ⟨⟨c', none⟩, next_of_scan hScan⟩
  | ahead hKept =>
      rw [hKept] at hScan
      cases hScan

theorem answers_of_standsAt
    (hStands : StandsAt l c)
    (calls : List Call) :
    l.answers calls = c.answers calls := by
  -- A call changes both, and `StandsAt` is what it keeps.
  induction calls generalizing l c with
  | nil => rfl
  | cons call calls ih =>
      rcases c.scan_cases with ⟨t, c', hScan⟩ | ⟨e, c', hScan⟩
      · rcases hStands.answer_of_ok hScan call with
          ⟨l', hAnswer, hMoved⟩
        rw [Cursor.answers_cons_of_ok hScan, answers, hAnswer]
        dsimp only
        rw [ih hMoved]
      · rcases hStands.answer_of_error hScan call with ⟨l', hAnswer⟩
        rw [Cursor.answers_cons_of_error hScan, answers, hAnswer]

theorem nexts_of_ok
    (hScan : c.scan = (.ok t, c'))
    (n : Nat) :
    nexts ⟨c, none⟩ (n + 1) = .ok t :: nexts ⟨c', none⟩ n := by
  rw [nexts, next_of_scan hScan]

theorem nexts_of_error
    (hScan : c.scan = (.error e, c'))
    (n : Nat) :
    nexts ⟨c, none⟩ (n + 1) = [.error e] := by
  rw [nexts, next_of_scan hScan]

/- Alone, they get the tokens, and then the end or the fault. -/
theorem Emits.nexts_eq
    {tokens : List Token}
    {ending : Except ParseError Token}
    (hEmits : l.Emits tokens ending) :
    l.nexts (tokens.length + 1) = tokens.map .ok ++ [ending] := by
  induction hEmits with
  | token hNext _ _ ih =>
      rw [List.length_cons, nexts, hNext, List.map_cons,
        List.cons_append]
      exact congrArg _ ih
  | finish hNext _ | fault hNext =>
      rw [List.length_nil, nexts, hNext]
      rfl

end Lexer

------------------------------------------------------------
-- What Calls For The Next Token Alone Would Get
------------------------------------------------------------

namespace Cursor

open Lexer (nexts nexts_of_ok nexts_of_error)

variable {calls : List Call} {call : Call} {front back : CallLog}

/- Calls for the next token among others get what they get alone. -/
theorem taken_isPrefix_nexts
    (c : Cursor)
    (calls : List Call)
    {n : Nat}
    (hLength : (taken (c.answers calls)).length ≤ n) :
    taken (c.answers calls) <+: nexts ⟨c, none⟩ n := by
  induction calls generalizing c n with
  | nil => exact List.nil_prefix
  | cons call calls ih =>
      rcases scan_cases c with ⟨t, c', hScan⟩ | ⟨e, c', hScan⟩
      · rw [answers_cons_of_ok hScan] at hLength ⊢
        cases call with
        | peek =>
            rw [taken_cons_peek] at hLength ⊢
            exact ih c hLength
        | next =>
            rw [moved, taken_cons_next] at hLength ⊢
            cases n with
            | zero => simp at hLength
            | succ n =>
                rw [nexts_of_ok hScan, List.prefix_cons_inj]
                exact ih c' (Nat.le_of_succ_le_succ hLength)
      · rw [answers_cons_of_error hScan] at hLength ⊢
        cases call with
        | peek => exact List.nil_prefix
        | next =>
            cases n with
            | zero => simp [taken_cons_next] at hLength
            | succ n =>
                rw [nexts_of_error hScan]
                exact List.prefix_rfl

/- The first call gets what is scanned, and others follow a token only. -/
theorem first_answer_cases
    {outcome : Except ParseError Token}
    (hLog : c.answers calls = (call, outcome) :: back) :
    (∃ t c', outcome = .ok t ∧ c.scan = (.ok t, c') ∧
      back = (moved c c' call).answers calls.tail) ∨
    (∃ e c', outcome = .error e ∧ c.scan = (.error e, c') ∧
      back = []) := by
  cases calls with
  | nil => cases hLog
  | cons first calls =>
      rcases scan_cases c with ⟨t, c', hScan⟩ | ⟨e, c', hScan⟩
      · rw [answers_cons_of_ok hScan] at hLog
        cases hLog
        exact Or.inl ⟨t, c', rfl, hScan, rfl⟩
      · rw [answers_cons_of_error hScan] at hLog
        cases hLog
        exact Or.inr ⟨e, c', rfl, hScan, rfl⟩

/-
  In front of each call of a log stands a cursor which
  answers the calls from that one on, and the calls for the
  next token in front of it lead there on their own.
-/
theorem exists_answers_of_append
    {entry : Call × Except ParseError Token}
    (hLog : c.answers calls = front ++ entry :: back) :
    ∃ c', c'.answers (calls.drop front.length) = entry :: back ∧
      ∀ n, nexts ⟨c, none⟩ ((taken front).length + n) =
        taken front ++ nexts ⟨c', none⟩ n := by
  -- Along the front: a peek in it leaves the cursor as it is.
  induction front generalizing c calls with
  | nil =>
      refine ⟨c, hLog, ?_⟩
      intro n
      simp [taken]
  | cons first front ih =>
      rcases first with ⟨call, outcome⟩
      rcases first_answer_cases hLog with
        ⟨t, c', rfl, hScan, hBack⟩ | ⟨e, c', rfl, hScan, hBack⟩
      · rcases ih hBack.symm with ⟨c'', hAnswers, hNexts⟩
        rw [List.drop_tail] at hAnswers
        refine ⟨c'', hAnswers, ?_⟩
        intro n
        cases call with
        | peek =>
            rw [taken_cons_peek]
            exact hNexts n
        | next =>
            rw [taken_cons_next, List.length_cons, Nat.add_right_comm,
              nexts_of_ok hScan, List.cons_append]
            exact congrArg _ (hNexts n)
      · simp at hBack

/- A call gets what a call for the next token would get there. -/
theorem nexts_one
    {outcome : Except ParseError Token}
    (hLog : c.answers calls = (call, outcome) :: back) :
    nexts ⟨c, none⟩ 1 = [outcome] := by
  rcases first_answer_cases hLog with
    ⟨t, c', rfl, hScan, -⟩ | ⟨e, c', rfl, hScan, -⟩
  · exact nexts_of_ok hScan 0
  · exact nexts_of_error hScan 0

/- Peeks behind a peek, and a call for the next token, get its token. -/
theorem prefix_of_peek
    {more : List Call}
    {k : Nat}
    (hLog : c.answers calls = (.peek, .ok t) :: back)
    (hCalls : calls.tail = List.replicate k .peek ++ .next :: more) :
    List.replicate k (.peek, .ok t) ++ [(.next, .ok t)] <+: back := by
  rcases first_answer_cases hLog with
    ⟨t', c', hToken, hScan, hBack⟩ | ⟨e, c', hError, -, -⟩
  · cases hToken
    rw [hBack, moved, hCalls, answers_replicate_peek hScan,
      answers_cons_of_ok hScan, List.prefix_append_right_inj,
      List.prefix_cons_inj]
    exact List.nil_prefix
  · cases hError

/- All calls behind one that got the end of the input get the end. -/
theorem answers_behind_end
    (hLog : c.answers calls = (call, .ok t) :: back)
    (hKind : t.kind = .endOfFile) :
    back = calls.tail.map fun call => (call, .ok t) := by
  rcases first_answer_cases hLog with
    ⟨t', c', hToken, hScan, hBack⟩ | ⟨e, c', hError, -, -⟩
  · cases hToken
    have hEnd := scan_of_endOfFile hScan hKind
    rw [hBack]
    cases call with
    | peek => exact answers_of_ended hScan hEnd _
    | next => exact answers_of_ended hEnd hEnd _
  · cases hError

end Cursor

------------------------------------------------------------
-- Peeking Changes Nothing
------------------------------------------------------------

namespace Lexer

theorem answers_ofText
    (s : Text)
    (calls : List Call) :
    (ofText s).answers calls = (Cursor.ofText s).answers calls := by
  exact answers_of_standsAt (.plain (.ofText s)) calls

/-
  Calls on the lexer of an input, however peeks and calls for
  the next token follow one another, are answered as calls
  for the next token alone would be.
-/
theorem transparent_answers
    (s : Text)
    (calls : List Call) :
    Transparent s calls ((ofText s).answers calls) := by
  rw [answers_ofText]
  constructor
  case made =>
    exact (Cursor.ofText s).upToFailure_answers calls
  case inOrder =>
    intro n hLength
    exact (Cursor.ofText s).taken_isPrefix_nexts calls hLength
  case peeked =>
    intro front back t k more hLog hCalls
    rcases Cursor.exists_answers_of_append hLog with
      ⟨c, hAnswers, -⟩
    rw [← List.tail_drop] at hCalls
    exact Cursor.prefix_of_peek hAnswers hCalls
  case inPlace =>
    intro front back call outcome hLog
    rcases Cursor.exists_answers_of_append hLog with
      ⟨c, hAnswers, hNexts⟩
    have hHere := Cursor.nexts_one hAnswers
    rw [← hHere]
    exact hNexts 1
  case ended =>
    intro front back call t hLog hKind
    rcases Cursor.exists_answers_of_append hLog with
      ⟨c, hAnswers, -⟩
    rw [← List.tail_drop]
    exact Cursor.answers_behind_end hAnswers hKind

/- A peek meets the fault, and the token in front of it is not lost. -/
example :
    (ofText (ascii "a 'b")).answers [.peek, .next, .peek, .next] =
      [(.peek, .ok ⟨.identifier, ascii "a", ⟨1, 1, 0⟩, 1⟩),
        (.next, .ok ⟨.identifier, ascii "a", ⟨1, 1, 0⟩, 1⟩),
        (.peek, .error ⟨⟨1, 3, 2⟩, .unterminatedString⟩)] := by
  rfl

end Lexer

end Yul

end ContractLinker
