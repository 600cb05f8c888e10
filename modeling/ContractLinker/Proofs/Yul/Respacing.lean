import ContractLinker.Proofs.Yul.Forgetting

/-
  White space and comments are insignificant. When the gaps
  of an input are replaced by others, in front of each token
  and behind the last one, a lexer finds the same tokens at
  other places, and what is read of them is the same object
  but for the texts of its code.

  Key definitions include:
    * `Yul.Filler`
    * `Yul.respaced`

  Main statements:
    * `Yul.Filler.gap`
    * `Yul.exists_spells_respaced`
    * `Yul.Object.parse_respaced`
-/

------------------------------------------------------------
-- Fillers
------------------------------------------------------------

namespace ContractLinker

namespace Yul

/-
  A piece of a gap which is one whatever stands behind it:
  white space, a comment with the end of its line, or a
  comment with its closing mark.
-/
inductive ClosedPiece : Text → Prop where
  | blank {b : UInt8}
      (hBlank : Text.isBlank b = true) :
      ClosedPiece [b]
  | line {body : Text}
      (hBody : Text.newline ∉ body) :
      ClosedPiece (lineMark ++ (body ++ [Text.newline]))
  | block {body : Text}
      (hFirst : ¬ closeMark <:+: body ++ ['*'.toUInt8]) :
      ClosedPiece (openMark ++ (body ++ closeMark))

/- A sequence of such pieces, of which there is one at least. -/
inductive Filler : Text → Prop where
  | one {piece : Text}
      (hPiece : ClosedPiece piece) :
      Filler piece
  | cons {piece s : Text}
      (hPiece : ClosedPiece piece)
      (hRest : Filler s) :
      Filler (piece ++ s)

/-
  An input with other gaps: fillers in front of its tokens,
  and a last one behind them.
-/
def respaced (input last : Text) :
    List Text → List Token → Text
  | filler :: fillers, t :: tokens =>
      filler ++ (spanOf input t ++ respaced input last fillers tokens)
  | _, _ => last

theorem ClosedPiece.gap
    {piece : Text}
    (hPiece : ClosedPiece piece)
    {s rest : Text}
    (hGap : Gap s rest) :
    Gap (piece ++ s) rest := by
  cases hPiece with
  | blank hBlank =>
      exact .cons (.blank hBlank _) hGap
  | @line body hBody =>
      have hNewline : Gap (Text.newline :: s) rest :=
        .cons (.blank (by decide) _) hGap
      have hLine :
          lineMark ++ (body ++ [Text.newline]) ++ s =
            lineMark ++ body ++ Text.newline :: s := by
        simp
      rw [hLine]
      refine .cons (.line hBody ?_) hNewline
      intro b hHead
      cases hHead
      rfl
  | block hFirst =>
      exact .cons (.block hFirst _) hGap

/- A filler is a gap in front of anything. -/
theorem Filler.gap
    {front : Text}
    (hFiller : Filler front)
    (rest : Text) :
    Gap front rest := by
  induction hFiller with
  | one hPiece =>
      have hGap := hPiece.gap (.nil rest)
      rw [List.append_nil] at hGap
      exact hGap
  | cons hPiece _ ih =>
      exact hPiece.gap ih

theorem ClosedPiece.separates
    {piece : Text}
    (hPiece : ClosedPiece piece) :
    ∃ b s, piece = b :: s ∧ Separates b := by
  cases hPiece with
  | blank hBlank => exact ⟨_, _, rfl, Or.inl hBlank⟩
  | line _ => exact ⟨_, _, rfl, Or.inr rfl⟩
  | block _ => exact ⟨_, _, rfl, Or.inr rfl⟩

theorem Filler.separates
    {front : Text}
    (hFiller : Filler front)
    (rest : Text) :
    ∀ c ∈ (front ++ rest).head?, Separates c := by
  have hFirst : ∃ b s, front = b :: s ∧ Separates b := by
    cases hFiller with
    | one hPiece =>
        exact hPiece.separates
    | cons hPiece _ =>
        rcases hPiece.separates with ⟨b, s, rfl, hSeparates⟩
        exact ⟨b, _, rfl, hSeparates⟩
  rcases hFirst with ⟨b, s, rfl, hSeparates⟩
  intro c hHead
  cases hHead
  exact hSeparates

------------------------------------------------------------
-- Tokens Of A Respaced Input
------------------------------------------------------------

variable {input last : Text} {fillers : List Text}

theorem separates_respaced
    (hLast : Filler last)
    (hFillers : ∀ filler ∈ fillers, Filler filler)
    (tokens : List Token) :
    ∀ c ∈ (respaced input last fillers tokens).head?, Separates c := by
  have hEnd := hLast.separates []
  rw [List.append_nil] at hEnd
  match fillers, tokens with
  | [], _ => exact hEnd
  | _ :: _, [] => exact hEnd
  | filler :: fillers, t :: tokens =>
      exact (hFillers filler List.mem_cons_self).separates _

/- The tokens are found again, at other places. -/
theorem exists_spells_respaced
    {start : Nat}
    {tokens : List Token}
    {ending : Except ParseError Token}
    (hCut : Tokenized input start tokens ending)
    (hLength : fillers.length = tokens.length)
    (hFillers : ∀ filler ∈ fillers, Filler filler)
    (hLast : Filler last)
    (before : Text) :
    ∃ tokens', Spells before (respaced input last fillers tokens)
        tokens' ∧
      tokens'.map Token.bare = tokens.map Token.bare := by
  induction hCut generalizing fillers before with
  | @token start t tokens _ hGap hToken _ ih =>
      cases fillers with
      | nil =>
          simp at hLength
      | cons filler fillers =>
          rw [List.forall_mem_cons] at hFillers
          rcases ih (by simpa using hLength) hFillers.2
              (before ++ filler ++ spanOf input t) with
            ⟨tokens', hSpells, hSame⟩
          have hHead :=
            @separates_respaced input last fillers hLast hFillers.2
              tokens
          exact ⟨_, spells_cons hToken (hFillers.1.gap _)
              (fun c hFirst => Or.inr (hHead c hFirst)) hSpells,
            by simp [hSame]⟩
  | finish _ | fault _ _ =>
      refine ⟨[], ?_, rfl⟩
      cases fillers <;> exact .finish (hLast.gap [])

/- A cut without a fault ends with the end of the input. -/
theorem Tokenized.final_eq
    {s : Text}
    {start : Nat}
    {tokens : List Token}
    {final : Token}
    (hCut : Tokenized s start tokens (.ok final)) :
    final = endToken s := by
  generalize hEnding : Except.ok final = ending at hCut
  induction hCut with
  | token _ _ _ ih =>
      exact ih hEnding
  | finish _ =>
      cases hEnding
      rfl
  | fault _ _ =>
      cases hEnding

/- The stream is the same but for places, if the input has no fault. -/
theorem stream_respaced
    {tokens : List Token}
    {final : Token}
    (hEmits : (Lexer.ofText input).Emits tokens (.ok final))
    (hLength : fillers.length = tokens.length)
    (hFillers : ∀ filler ∈ fillers, Filler filler)
    (hLast : Filler last) :
    (TokenStream.ofText (respaced input last fillers tokens)).bare =
      (TokenStream.ofText input).bare := by
  have hCut := hEmits.tokenized
  rcases exists_spells_respaced hCut hLength hFillers hLast [] with
    ⟨tokens', hSpells, hSame⟩
  rcases Object.emits_iff_stream.mp hEmits with ⟨hTokens, hEnding⟩
  have hFinal : final = endToken input := hCut.final_eq
  rw [hSpells.stream_ofText, TokenStream.bare, TokenStream.bare,
    ← hTokens, ← hEnding, hSame, hFinal]
  rfl

------------------------------------------------------------
-- What Is Read Of It
------------------------------------------------------------

namespace Object

/- An accepted input has no lexical fault. -/
theorem exists_emits_of_parse
    {o : Object}
    (hParse : parse input = .ok o) :
    ∃ tokens final, (Lexer.ofText input).Emits tokens (.ok final) := by
  rcases parse_eq_ok_iff_parseFront.mp hParse with ⟨final, hFront⟩
  rcases parseFront_eq_ok_iff.mp hFront with ⟨front, _, hEmits, _⟩
  exact ⟨_, final, hEmits⟩

/-
  With other gaps an accepted input is accepted, and stands
  for the same object but for the texts of its code. An input
  which is cut without a fault and rejected is rejected still,
  and for the same fault.
-/
theorem parse_respaced
    {tokens : List Token}
    {ending : Except ParseError Token}
    (hEmits : (Lexer.ofText input).Emits tokens ending)
    (hLength : fillers.length = tokens.length)
    (hFillers : ∀ filler ∈ fillers, Filler filler)
    (hLast : Filler last) :
    (∀ o, parse input = .ok o →
      ∃ o', parse (respaced input last fillers tokens) = .ok o' ∧
        o'.bare = o.bare ∧
        o'.factoryDependencies = o.factoryDependencies) ∧
    ∀ final e, ending = .ok final → parse input = .error e →
      ∃ e', parse (respaced input last fillers tokens) = .error e' ∧
        e'.fault = e.fault := by
  have hSame :
      ∀ final, ending = .ok final →
        forget bare (parse (respaced input last fillers tokens)) =
          forget bare (parse input) := by
    rintro final rfl
    rw [parse_bare, parse_bare,
      stream_respaced hEmits hLength hFillers hLast]
  constructor
  · intro o hParse
    rcases exists_emits_of_parse hParse with ⟨_, final, hOther⟩
    have hForget := hSame final (hEmits.unique hOther).2
    rw [hParse] at hForget
    cases hAgain : parse (respaced input last fillers tokens) with
    | error e =>
        rw [hAgain] at hForget
        cases hForget
    | ok o' =>
        rw [hAgain] at hForget
        have hBare : o'.bare = o.bare := Except.ok.inj hForget
        refine ⟨o', rfl, hBare, ?_⟩
        rw [← factoryDependencies_bare, hBare, factoryDependencies_bare]
  · intro final e hEnding hParse
    have hForget := hSame final hEnding
    rw [hParse] at hForget
    cases hAgain : parse (respaced input last fillers tokens) with
    | error e' =>
        rw [hAgain] at hForget
        have hBare : e'.bare = e.bare := Except.error.inj hForget
        have hFault := congrArg ParseError.fault hBare
        exact ⟨e', rfl, hFault⟩
    | ok o =>
        rw [hAgain] at hForget
        cases hForget

/- A comment with a brace and a quote in it, and without a line. -/
def braceComment : Text :=
  openMark ++ (ascii " \x7d ' " ++ closeMark)

theorem filler_braceComment :
    Filler braceComment := by
  have hSlash :
      '/'.toUInt8 ∉ ascii " \x7d ' " ++ ['*'.toUInt8] := by
    decide
  have hMark : '/'.toUInt8 ∈ closeMark := by
    decide
  exact .one (.block fun hInside => hSlash (hInside.subset hMark))

/- An object which creates another one. -/
def creatingSource : Text :=
  ascii "object 'A' \x7b code \x7b datasize('B') \x7d " ++
    ascii "object 'B' \x7b code \x7b \x7d \x7d \x7d"

theorem parse_respaced_creatingSource :
    ∃ tokens final o o',
      (Lexer.ofText creatingSource).Emits tokens (.ok final) ∧
      parse creatingSource = .ok o ∧
      parse (respaced creatingSource braceComment
          (List.replicate tokens.length braceComment) tokens) =
        .ok o' ∧
      o'.bare = o.bare ∧ o'.factoryDependencies = [ascii "B"] := by
  have hRead :
      (parse creatingSource).toOption.map factoryDependencies =
        some [ascii "B"] := by
    decide +kernel
  cases hParse : parse creatingSource with
  | error e =>
      rw [hParse] at hRead
      cases hRead
  | ok o =>
      rw [hParse] at hRead
      have hDependencies : o.factoryDependencies = [ascii "B"] :=
        Option.some.inj hRead
      rcases exists_emits_of_parse hParse with ⟨tokens, final, hEmits⟩
      have hFillers :
          ∀ filler ∈ List.replicate tokens.length braceComment,
            Filler filler := by
        intro filler hMember
        rw [List.eq_of_mem_replicate hMember]
        exact filler_braceComment
      have hRespaced :=
        parse_respaced hEmits List.length_replicate hFillers
          filler_braceComment
      rcases hRespaced.1 o hParse with ⟨o', hAgain, hBare, hSame⟩
      exact ⟨tokens, final, o, o', hEmits, rfl, hAgain, hBare,
        hSame.trans hDependencies⟩

end Object

end Yul

end ContractLinker
