import ContractLinker.Proofs.Yul.Blocks
import ContractLinker.Proofs.Yul.Spelling

/-
  What is kept of a block of code: the bytes from its first
  brace to the one which matches it, and the names it refers
  to. The tokens behind the block are those which a lexer
  finds behind its last byte, and reading the bytes which
  were kept gives them and the names once more.

  Key definitions include:
    * `Yul.Matched`
    * `Yul.HasReference`
    * `Yul.Captured`

  Main statements:
    * `Yul.Code.parse_eq_ok_iff_codeRule`
    * `Yul.mem_referencesOf_iff`
    * `Yul.Code.captured_of_parse`
-/

------------------------------------------------------------
-- Blocks In An Input
------------------------------------------------------------

namespace ContractLinker

namespace Yul

/-
  Tokens from an opening brace to the brace which matches
  it: a brace is open behind every part of them but the
  whole.
-/
structure Matched (block : List Token) : Prop where
  opening : block.head?.map Token.isOpen = some true
  inside : ∀ front, front <+: block → front ≠ [] → front ≠ block →
    front.countP Token.isClose < front.countP Token.isOpen
  closed : block.countP Token.isOpen = block.countP Token.isClose

/- Three tokens of a list in a row which refer to a name. -/
def HasReference (tokens : List Token) (name : Text) : Prop :=
  ∃ word parenthesis literal,
    [word, parenthesis, literal] <:+: tokens ∧
      isReferenceFunction word = true ∧
      parenthesis.isSymbol (ascii "(") = true ∧
      literal.kind = .stringLiteral ∧ literal.text = name

/- A text which begins with the keyword of a block of code. -/
def codeSource (text : Text) : Text :=
  ascii "code " ++ text

/-
  A block of code which was read at the front of a stream of
  an input, with the tokens behind it.
-/
inductive Captured (input : Text) (stream behind : TokenStream)
    (code : Code) : Prop where
  | intro {word : Token} {block : List Token} {before after : Text}
      (hTokens : stream.tokens = word :: (block ++ behind.tokens))
      (hWord : word.isKeyword (ascii "code") = true)
      (hBlock : Matched block)
      (hInput : input = before ++ (code.text ++ after))
      (hFirst :
        block.head?.map (fun t => t.location.offset) =
          some before.length)
      (hLast :
        block.getLast?.map Token.stop =
          some (before ++ code.text).length)
      (hReferences : ∀ name,
        name ∈ code.references ↔ HasReference block name)
      (hBehind :
        Lexer.Emits ⟨⟨.behind (before ++ code.text), after⟩, none⟩
          behind.tokens behind.ending)
      (hAgain : ∃ rest,
        Code.parse (codeSource code.text)
            (.ofText (codeSource code.text)) =
          .ok (code, rest)) :
      Captured input stream behind code

------------------------------------------------------------
-- Reading Code
------------------------------------------------------------

/- A block is read at the front of a stream if it stands there. -/
theorem Code.parse_eq_ok_iff_codeRule
    {input : Text}
    {stream behind : TokenStream}
    {code : Code} :
    Code.parse input stream = .ok (code, behind) ↔
      ∃ front, stream.tokens = front ++ behind.tokens ∧
        behind.ending = stream.ending ∧ CodeRule input front code := by
  exact CodeReader.feed_keyword_eq_ok_iff

------------------------------------------------------------
-- References
------------------------------------------------------------

variable {name : Text}

/- A reference begins with the first token or lies behind it. -/
theorem hasReference_cons_iff
    {t : Token}
    {rest : List Token} :
    HasReference (t :: rest) name ↔
      (∃ parenthesis literal more,
        rest = parenthesis :: literal :: more ∧
          isReferenceFunction t = true ∧
          parenthesis.isSymbol (ascii "(") = true ∧
          literal.kind = .stringLiteral ∧ literal.text = name) ∨
        HasReference rest name := by
  unfold HasReference
  constructor
  · rintro ⟨word, parenthesis, literal, hInfix, hReference⟩
    rcases List.infix_cons_iff.mp hInfix with hFront | hRest
    · rcases List.cons_prefix_cons.mp hFront with ⟨rfl, more, hMore⟩
      exact Or.inl ⟨parenthesis, literal, more, hMore.symm, hReference⟩
    · exact Or.inr ⟨word, parenthesis, literal, hRest, hReference⟩
  · rintro (⟨parenthesis, literal, more, rfl, hReference⟩ |
      ⟨word, parenthesis, literal, hInfix, hReference⟩)
    · exact ⟨t, parenthesis, literal, ⟨[], more, rfl⟩, hReference⟩
    · exact ⟨word, parenthesis, literal, hInfix.trans ⟨[t], [], by simp⟩,
        hReference⟩

theorem mem_referencesOf_cons_iff
    {t : Token}
    {rest : List Token} :
    name ∈ referencesOf (t :: rest) ↔
      (∃ parenthesis literal more,
        rest = parenthesis :: literal :: more ∧
          isReferenceFunction t = true ∧
          parenthesis.isSymbol (ascii "(") = true ∧
          literal.kind = .stringLiteral ∧ literal.text = name) ∨
        name ∈ referencesOf rest := by
  match rest with
  | [] => simp [referencesOf]
  | [_] => simp [referencesOf]
  | parenthesis :: literal :: more =>
      rw [referencesOf]
      split
      · next hReference =>
          rw [List.mem_cons]
          apply or_congr_left
          constructor
          · intro hName
            exact ⟨parenthesis, literal, more, rfl, hReference.1,
              hReference.2.1, hReference.2.2, hName.symm⟩
          · rintro ⟨_, _, _, hRest, -, -, -, hName⟩
            cases hRest
            exact hName.symm
      · next hNone =>
          constructor
          · exact Or.inr
          · rintro (⟨_, _, _, hRest, hReference⟩ | hLater)
            · cases hRest
              exact absurd
                ⟨hReference.1, hReference.2.1, hReference.2.2.1⟩ hNone
            · exact hLater

/- The names which a block refers to are those of its references. -/
theorem mem_referencesOf_iff
    {tokens : List Token} :
    name ∈ referencesOf tokens ↔ HasReference tokens name := by
  induction tokens with
  | nil =>
      simp [referencesOf, HasReference]
  | cons t rest ih =>
      rw [mem_referencesOf_cons_iff, hasReference_cons_iff, ih]

/- The braces around a block are part of no reference. -/
theorem hasReference_braces_iff
    {opening closing : Token}
    {body : List Token}
    (hOpening : opening.isOpen = true)
    (hClosing : closing.isClose = true) :
    HasReference (opening :: (body ++ [closing])) name ↔
      HasReference body name := by
  have hWord := (Token.not_reference_of_brace (Or.inl hOpening)).1
  have hLiteral := (Token.not_reference_of_brace (Or.inr hClosing)).2.2
  rw [hasReference_cons_iff]
  simp only [hWord, Bool.false_eq_true, false_and, and_false,
    exists_false, false_or]
  constructor
  · rintro ⟨word, parenthesis, literal, hInfix, hReference⟩
    rcases List.infix_concat_iff.mp hInfix with hLast | hBody
    · have hSame : literal = closing := by
        rcases List.suffix_concat_iff.mp hLast with hNil | ⟨front, hFront, -⟩
        · cases hNil
        · have hEnd := congrArg List.getLast? hFront
          simpa using hEnd
      rw [hSame] at hReference
      exact absurd hReference.2.2.1 hLiteral
    · exact ⟨word, parenthesis, literal, hBody, hReference⟩
  · rintro ⟨word, parenthesis, literal, hInfix, hReference⟩
    exact ⟨word, parenthesis, literal,
      List.infix_concat_iff.mpr (Or.inr hInfix), hReference⟩

------------------------------------------------------------
-- Braces
------------------------------------------------------------

/- The brace behind a balanced body matches the one before it. -/
theorem Balanced.matched
    {opening closing : Token}
    {body : List Token}
    (hBody : Balanced body)
    (hOpening : opening.isOpen = true)
    (hClosing : closing.isClose = true) :
    Matched (opening :: (body ++ [closing])) := by
  have hNotClose := Token.isClose_of_isOpen hOpening
  have hNotOpen : closing.isOpen = false := by
    rw [← Bool.not_eq_true]
    intro hOpen
    rw [Token.isClose_of_isOpen hOpen] at hClosing
    cases hClosing
  constructor
  · simp [hOpening]
  · intro front hFront hNonempty hProper
    rcases List.prefix_cons_iff.mp hFront with hNil | ⟨inner, rfl, hInner⟩
    · exact absurd hNil hNonempty
    · have hNested : inner <+: body := by
        rcases List.prefix_concat_iff.mp hInner with hWhole | hBody
        · rw [hWhole] at hProper
          exact absurd rfl hProper
        · exact hBody
      have hDepth := hBody.nested inner hNested
      simp only [List.countP_cons, hOpening, hNotClose, if_true,
        Bool.false_eq_true, if_false]
      omega
  · have hClosed := hBody.closed
    simp [hOpening, hNotClose, hClosing, hNotOpen, hClosed]

------------------------------------------------------------
-- Reading Again
------------------------------------------------------------

theorem depthAfter_map_bare
    (depth : Nat)
    (tokens : List Token) :
    depthAfter depth (tokens.map Token.bare) =
      depthAfter depth tokens := by
  induction tokens generalizing depth with
  | nil => rfl
  | cons t rest ih => simp [depthAfter, depthBehind, ih]

theorem referencesFrom_map_bare
    (progress : ReferenceProgress)
    (tokens : List Token) :
    referencesFrom progress (tokens.map Token.bare) =
      referencesFrom progress tokens := by
  induction tokens generalizing progress with
  | nil => rfl
  | cons t rest ih =>
      have hBehind :
          referenceBehind progress t.bare = referenceBehind progress t := by
        cases progress <;> rfl
      simp [referencesFrom, referenceAt, hBehind, ih]

/- Whether a body is balanced does not depend on its places. -/
theorem Balanced.of_map_bare
    {body body' : List Token}
    (hBody : Balanced body)
    (hSame : body'.map Token.bare = body.map Token.bare) :
    Balanced body' := by
  rw [balanced_iff_depthAfter] at hBody ⊢
  rw [← depthAfter_map_bare, hSame, depthAfter_map_bare]
  exact hBody

theorem referencesOf_of_map_bare
    {body body' : List Token}
    (hSame : body'.map Token.bare = body.map Token.bare) :
    referencesOf body' = referencesOf body := by
  rw [← referencesFrom_eq, ← referencesFrom_eq,
    ← referencesFrom_map_bare, hSame, referencesFrom_map_bare]

/- The keyword of a block, in front of a blank. -/
theorem tokenSpan_codeKeyword
    (rest : Text) :
    TokenSpan .identifier (ascii "code") (ascii "code")
      (' '.toUInt8 :: rest) := by
  have hWord : ascii "code" = 'c'.toUInt8 :: ascii "ode" := rfl
  have hParts : ∀ c ∈ ascii "ode", isIdentifierPart c = true := by
    rw [← List.all_eq_true]
    decide
  rw [hWord]
  refine .identifier (by decide) hParts ?_ ?_
  · intro c hFirst
    cases hFirst
    decide
  · intro hMark
    exact absurd hMark (by decide)

/-
  The bytes of a block, behind the keyword, spell the tokens
  of the block once more.
-/
theorem exists_spells_codeSource
    {input : Text}
    {start : Nat}
    {opening closing : Token}
    {body behind : List Token}
    {ending : Except ParseError Token}
    (hCut :
      Tokenized input start (opening :: (body ++ closing :: behind))
        ending)
    {text : Text}
    (hText : text = slice input opening.location.offset closing.stop) :
    ∃ word opening' body' closing',
      Spells [] (codeSource text)
        (word :: opening' :: (body' ++ [closing'])) ∧
      word.isKeyword (ascii "code") = true ∧
      opening'.bare = opening.bare ∧
      body'.map Token.bare = body.map Token.bare ∧
      closing'.bare = closing.bare ∧
      slice (codeSource text) opening'.location.offset closing'.stop =
        text := by
  have hMember : closing ∈ body ++ closing :: behind := by
    simp
  cases hCut with
  | token _ hToken hRest =>
      have hBehind : opening.stop ≤ closing.stop :=
        Nat.le_trans (hRest.increasing.1 closing hMember)
          (Nat.le_of_lt (hRest.tokenAt hMember).nonempty)
      have hWhole :
          text =
            spanOf input opening ++
              slice input opening.stop closing.stop := by
        rw [hText, spanOf, slice_append_slice
          (Nat.le_of_lt hToken.nonempty) hBehind]
      rcases spells_block hRest
          (ascii "code" ++ [' '.toUInt8] ++ spanOf input opening) with
        ⟨body', closing', hSpells, hBody, hClosing, hStop⟩
      have hGap : Gap [' '.toUInt8] text :=
        .cons (.blank (by decide) _) (.nil _)
      rw [hWhole] at hGap
      have hBlock :=
        spells_cons hToken hGap
          (fun c hHead => Or.inl (mem_head?_of_slice hHead)) hSpells
      rw [← hWhole] at hBlock
      have hSource :=
        @Spells.token [] _ _ _ _ _ _ (.nil _)
          (tokenSpan_codeKeyword text) hBlock
      refine ⟨_, _, body', closing', hSource, rfl,
        opening.bare_behind _ _, hBody, hClosing, ?_⟩
      have hKeyword : ascii "code" ++ [' '.toUInt8] = ascii "code " :=
        rfl
      have hEnd :
          closing'.stop = (ascii "code ").length + text.length := by
        rw [hStop, List.append_assoc _ (spanOf input opening), ← hWhole,
          List.length_append, hKeyword]
      have hDrop :
          (codeSource text).drop (ascii "code ").length =
            text ++ [] := by
        rw [codeSource, List.drop_left, List.append_nil]
      rw [hEnd]
      exact (slice_of_drop hDrop).1

theorem parse_codeSource
    {text : Text}
    {word opening closing : Token}
    {body : List Token}
    (hSpells :
      Spells [] (codeSource text)
        (word :: opening :: (body ++ [closing])))
    (hWord : word.isKeyword (ascii "code") = true)
    (hOpening : opening.isOpen = true)
    (hBody : Balanced body)
    (hClosing : closing.isClose = true) :
    ∃ rest,
      Code.parse (codeSource text) (.ofText (codeSource text)) =
        .ok
          ({ text :=
              slice (codeSource text) opening.location.offset
                closing.stop
             references := TextSet.union [] (referencesOf body) },
            rest) := by
  refine ⟨⟨[], .ok (endToken (codeSource text))⟩, ?_⟩
  rw [hSpells.stream_ofText, Code.parse_eq_ok_iff_codeRule]
  exact ⟨_, (List.append_nil _).symm, rfl,
    .intro hWord hOpening hBody hClosing⟩

------------------------------------------------------------
-- What Is Kept
------------------------------------------------------------

/-
  A block of code which is read, anywhere among the tokens
  of an input, is kept from brace to brace, with the names
  it refers to; the tokens left are those behind the last
  byte which was kept, and what was kept is read alike.
-/
theorem Code.captured_of_parse
    {input : Text}
    {front : List Token}
    {stream behind : TokenStream}
    {code : Code}
    (hEmits :
      (Lexer.ofText input).Emits (front ++ stream.tokens)
        stream.ending)
    (hParse : Code.parse input stream = .ok (code, behind)) :
    Captured input stream behind code := by
  rcases parse_eq_ok_iff_codeRule.mp hParse with
    ⟨tokens, hTokens, hEnding, hCode⟩
  cases hCode with
  | @intro word opening closing body hWord hOpening hBody hClosing =>
      rw [hTokens, ← hEnding] at hEmits
      have hWhole := hEmits.tokenized
      have hList :
          front ++ (word :: opening :: (body ++ [closing]) ++
              behind.tokens) =
            (front ++ [word]) ++
              opening :: (body ++ closing :: behind.tokens) := by
        simp
      rw [hList] at hWhole
      rcases hWhole.exists_rest with ⟨start, hCut⟩
      have hOpeningAt := hCut.tokenAt List.mem_cons_self
      have hMember : closing ∈ body ++ closing :: behind.tokens := by
        simp
      have hClosingAt := hCut.tokenAt (List.mem_cons_of_mem _ hMember)
      have hBehind : Tokenized input closing.stop behind.tokens
          behind.ending := by
        rcases @Tokenized.exists_rest _ _ (opening :: body) _ _ hCut
          with ⟨middle, hLast⟩
        cases hLast with
        | token _ _ hRest => exact hRest
      have hLe : opening.location.offset ≤ closing.stop := by
        have hOrder := List.pairwise_cons.mp hCut.increasing.2
        have hBetween := hOrder.1 closing hMember
        have hFirst := hOpeningAt.nonempty
        have hLast := hClosingAt.nonempty
        omega
      have hBound :
          opening.location.offset ≤ input.length :=
        Nat.le_trans hLe hClosingAt.bound
      rcases exists_spells_codeSource hCut rfl with
        ⟨word', opening', body', closing', hSpells, hWord', hOpening',
          hBody', hClosing', hText⟩
      refine @Captured.intro _ _ _ _ _ (opening :: (body ++ [closing]))
        (input.take opening.location.offset)
        (input.drop closing.stop) ?_ hWord
        (hBody.matched hOpening hClosing) ?_ ?_ ?_ ?_ ?_ ?_
      · simp [hTokens]
      · rw [slice_append_drop hLe, List.take_append_drop]
      · simp [hBound]
      · rw [take_append_slice hLe,
          List.length_take_of_le hClosingAt.bound, ← List.cons_append,
          List.getLast?_concat]
        rfl
      · intro name
        rw [TextSet.mem_union, mem_referencesOf_iff,
          hasReference_braces_iff hOpening hClosing]
        simp
      · rw [take_append_slice hLe]
        exact Lexer.emits_of_tokenized hBehind
      · have hOpens : opening'.isOpen = true := by
          rw [← Token.isOpen_bare, hOpening', Token.isOpen_bare]
          exact hOpening
        have hCloses : closing'.isClose = true := by
          rw [← Token.isClose_bare, hClosing', Token.isClose_bare]
          exact hClosing
        have hAgain :=
          parse_codeSource hSpells hWord' hOpens
            (hBody.of_map_bare hBody') hCloses
        rw [hText, referencesOf_of_map_bare hBody'] at hAgain
        exact hAgain

/- A block with closing braces in a literal and in a comment. -/
def bracedBlock : Text :=
  ascii "\x7b datasize(datasize('\x7d')) /* \x7d */ \x7b\x7d \x7d"

def bracedSource : Text :=
  codeSource bracedBlock ++ ascii " data"

theorem captured_bracedSource :
    ∃ behind,
      Code.parse bracedSource (.ofText bracedSource) =
          .ok (⟨bracedBlock, [ascii "\x7d"]⟩, behind) ∧
        behind.next.toOption.map Token.text = some (ascii "data") ∧
        Captured bracedSource (.ofText bracedSource) behind
          ⟨bracedBlock, [ascii "\x7d"]⟩ := by
  have hRead :
      (Code.parse bracedSource (.ofText bracedSource)).toOption.map
          (fun r => (r.1, r.2.next.toOption.map Token.text)) =
        some (⟨bracedBlock, [ascii "\x7d"]⟩, some (ascii "data")) := by
    decide +kernel
  cases hParse : Code.parse bracedSource (.ofText bracedSource) with
  | error e =>
      rw [hParse] at hRead
      cases hRead
  | ok result =>
      rcases result with ⟨code, behind⟩
      rw [hParse] at hRead
      rcases Prod.mk.inj (Option.some.inj hRead) with ⟨rfl, hNext⟩
      have hEmits := TokenStream.emits_ofText bracedSource
      exact ⟨behind, rfl, hNext,
        @Code.captured_of_parse _ [] _ _ _ hEmits hParse⟩

end Yul

end ContractLinker
