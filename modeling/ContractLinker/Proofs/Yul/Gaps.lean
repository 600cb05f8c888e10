import ContractLinker.Yul.Lexer

/-
  The gaps between tokens. A gap is a sequence of blanks,
  comments to the end of a line and comments up to their
  first closing mark. This is said here without a lexer, by
  what stands behind each of them; cutting a gap off an
  input finds one behind which there is no more to skip, and
  no other cut does that.

  Key definitions include:
    * `Yul.Separator`
    * `Yul.Gap`
    * `Yul.GapCut`

  Main statements:
    * `Yul.blockComment_eq_none_iff`
    * `Yul.gapCut_gap`
    * `Yul.gap_append`
-/

------------------------------------------------------------
-- Separators
------------------------------------------------------------

namespace ContractLinker

namespace Yul

/- The mark of a comment to the end of its line. -/
def lineMark : Text :=
  ['/'.toUInt8, '/'.toUInt8]

/- The marks around a comment which may span lines. -/
def openMark : Text :=
  ['/'.toUInt8, '*'.toUInt8]

def closeMark : Text :=
  ['*'.toUInt8, '/'.toUInt8]

theorem star_ne_slash :
    '*'.toUInt8 ≠ '/'.toUInt8 := by
  decide

/-
  One piece of a gap, with what stands behind it. A comment
  with marks ends at the first closing mark behind the two
  bytes of its opening mark.
-/
inductive Separator : Text → Text → Prop where
  | blank {b : UInt8}
      (hBlank : Text.isBlank b = true)
      (rest : Text) :
      Separator [b] rest
  | line {body rest : Text}
      (hBody : Text.newline ∉ body)
      (hEnd : ∀ b ∈ rest.head?, b = Text.newline) :
      Separator (lineMark ++ body) rest
  | block {body : Text}
      (hFirst : ¬ closeMark <:+: body ++ ['*'.toUInt8])
      (rest : Text) :
      Separator (openMark ++ (body ++ closeMark)) rest

/- A sequence of separators, with what stands behind it. -/
inductive Gap : Text → Text → Prop where
  | nil (rest : Text) :
      Gap [] rest
  | cons {piece s rest : Text}
      (hPiece : Separator piece (s ++ rest))
      (hGap : Gap s rest) :
      Gap (piece ++ s) rest

------------------------------------------------------------
-- Equations
------------------------------------------------------------

theorem pushFront_mk
    (b : UInt8)
    (front rest : Text) :
    pushFront b (front, rest) = (b :: front, rest) := by
  rfl

theorem gap_of_isBlank
    {b : UInt8}
    (hBlank : Text.isBlank b = true)
    (s : Text) :
    gap (b :: s) = pushFront b (gap s) := by
  rw [gap.eq_def]
  simp only [hBlank, if_true]

theorem gap_lineMark
    (s : Text) :
    gap (lineMark ++ s) =
      pushFront '/'.toUInt8
        (pushFront '/'.toUInt8 (lineComment s)) := by
  have hSlash : Text.isBlank '/'.toUInt8 = false := by
    decide
  change gap ('/'.toUInt8 :: '/'.toUInt8 :: s) = _
  rw [gap.eq_def]
  simp [hSlash]

theorem gap_openMark
    (s : Text) :
    gap (openMark ++ s) =
      match blockComment false s with
      | some parts =>
          pushFront '/'.toUInt8 (pushFront '*'.toUInt8 parts)
      | none => ([], openMark ++ s) := by
  have hSlash : Text.isBlank '/'.toUInt8 = false := by
    decide
  change gap ('/'.toUInt8 :: '*'.toUInt8 :: s) = _
  rw [gap.eq_def]
  simp only [hSlash, Bool.false_eq_true, if_false, if_true]
  rw [if_neg star_ne_slash]
  rfl

/- A byte which begins no separator ends a gap. -/
theorem gap_of_other
    {b : UInt8}
    {s : Text}
    (hBlank : Text.isBlank b = false)
    (hMark : b = '/'.toUInt8 →
      ∀ c ∈ s.head?, c ≠ '/'.toUInt8 ∧ c ≠ '*'.toUInt8) :
    gap (b :: s) = ([], b :: s) := by
  rw [gap.eq_def]
  simp only [hBlank, Bool.false_eq_true, if_false]
  by_cases hSlash : b = '/'.toUInt8
  · rw [if_pos hSlash]
    cases s with
    | nil =>
        rfl
    | cons c t =>
        have hOther := hMark hSlash c rfl
        simp [hOther]
  · rw [if_neg hSlash]

/- How a text goes on behind a byte which is no blank. -/
theorem mark_cases
    (b : UInt8)
    (s : Text) :
    (∃ t, b :: s = lineMark ++ t) ∨
      (∃ t, b :: s = openMark ++ t) ∨
      (b = '/'.toUInt8 →
        ∀ c ∈ s.head?, c ≠ '/'.toUInt8 ∧ c ≠ '*'.toUInt8) := by
  by_cases hSlash : b = '/'.toUInt8
  · cases s with
    | nil =>
        refine Or.inr (Or.inr ?_)
        simp
    | cons c t =>
        by_cases hLine : c = '/'.toUInt8
        · exact Or.inl ⟨t, by rw [hSlash, hLine]; rfl⟩
        · by_cases hBlock : c = '*'.toUInt8
          · exact Or.inr (Or.inl ⟨t, by rw [hSlash, hBlock]; rfl⟩)
          · refine Or.inr (Or.inr ?_)
            intro _ d hHead
            cases hHead
            exact ⟨hLine, hBlock⟩
  · refine Or.inr (Or.inr ?_)
    intro hEq
    exact absurd hEq hSlash

------------------------------------------------------------
-- Closing Marks
------------------------------------------------------------

/- A closing mark begins with the first byte or lies behind it. -/
theorem closeMark_infix_cons
    {b : UInt8}
    {s : Text} :
    closeMark <:+: b :: s ↔
      (b = '*'.toUInt8 ∧ s.head? = some '/'.toUInt8) ∨
        closeMark <:+: s := by
  rw [List.infix_cons_iff]
  apply or_congr_left
  unfold closeMark
  rw [List.cons_prefix_cons, eq_comm]
  cases s with
  | nil => simp
  | cons c t => simp [List.cons_prefix_cons, eq_comm]

/- A text with the star which was read in front of it, if any. -/
def starred (afterStar : Bool) (s : Text) : Text :=
  if afterStar then '*'.toUInt8 :: s else s

/- The star is all that has to be remembered of what was read. -/
theorem closeMark_infix_starred
    {afterStar : Bool}
    {b : UInt8}
    {s : Text}
    (hOpen : ¬ (afterStar = true ∧ b = '/'.toUInt8)) :
    closeMark <:+: starred afterStar (b :: s) ↔
      closeMark <:+: starred (b = '*'.toUInt8) s := by
  have hByte :
      closeMark <:+: b :: s ↔
        closeMark <:+: starred (b = '*'.toUInt8) s := by
    unfold starred
    by_cases hStar : b = '*'.toUInt8
    · simp [hStar]
    · rw [closeMark_infix_cons]
      simp [hStar]
  rw [← hByte]
  cases afterStar with
  | false =>
      rfl
  | true =>
      change closeMark <:+: '*'.toUInt8 :: b :: s ↔ _
      rw [closeMark_infix_cons]
      simp only [true_and] at hOpen
      simp [hOpen]

theorem closeMark_infix_slash
    (s : Text) :
    closeMark <:+: starred true ('/'.toUInt8 :: s) := by
  change closeMark <:+: '*'.toUInt8 :: '/'.toUInt8 :: s
  rw [closeMark_infix_cons]
  exact Or.inl ⟨rfl, rfl⟩

theorem blockComment_cons
    {afterStar : Bool}
    {b : UInt8}
    (hOpen : ¬ (afterStar = true ∧ b = '/'.toUInt8))
    (s : Text) :
    blockComment afterStar (b :: s) =
      (blockComment (b = '*'.toUInt8) s).map (pushFront b) := by
  rw [blockComment.eq_def]
  simp only [Bool.and_eq_true, decide_eq_true_eq]
  rw [if_neg hOpen]

/- A comment is not closed just when there is no closing mark. -/
theorem blockComment_starred_eq_none_iff
    {afterStar : Bool}
    {s : Text} :
    blockComment afterStar s = none ↔
      ¬ closeMark <:+: starred afterStar s := by
  induction s generalizing afterStar with
  | nil =>
      have hShort : ¬ closeMark <:+: starred afterStar [] := by
        intro hInfix
        have hLength := hInfix.length_le
        cases afterStar <;> simp [closeMark, starred] at hLength
      simp [blockComment, hShort]
  | cons b s ih =>
      by_cases hOpen : afterStar = true ∧ b = '/'.toUInt8
      · rcases hOpen with ⟨rfl, rfl⟩
        have hInfix := closeMark_infix_slash s
        rw [blockComment.eq_def]
        simp [hInfix]
      · rw [blockComment_cons hOpen, Option.map_eq_none_iff, ih,
          closeMark_infix_starred hOpen]

theorem blockComment_eq_none_iff
    {s : Text} :
    blockComment false s = none ↔ ¬ closeMark <:+: s := by
  exact blockComment_starred_eq_none_iff

/- A comment ends at its first closing mark. -/
theorem blockComment_append
    {afterStar : Bool}
    {body : Text}
    (hFirst :
      ¬ closeMark <:+: starred afterStar (body ++ ['*'.toUInt8]))
    (s : Text) :
    blockComment afterStar (body ++ (closeMark ++ s)) =
      some (body ++ (closeMark ++ (gap s).1), (gap s).2) := by
  induction body generalizing afterStar with
  | nil =>
      have hStar :
          ¬ (afterStar = true ∧ '*'.toUInt8 = '/'.toUInt8) :=
        fun h => star_ne_slash h.2
      change blockComment afterStar
        ('*'.toUInt8 :: '/'.toUInt8 :: s) = _
      rw [blockComment_cons hStar, blockComment.eq_def]
      rfl
  | cons b body ih =>
      have hOpen : ¬ (afterStar = true ∧ b = '/'.toUInt8) := by
        rintro ⟨rfl, rfl⟩
        exact hFirst (closeMark_infix_slash _)
      rw [List.cons_append, closeMark_infix_starred hOpen] at hFirst
      rw [List.cons_append, blockComment_cons hOpen, ih hFirst]
      rfl

/- Of several closing marks there is a first one. -/
theorem exists_first_closeMark
    {s : Text}
    (hInfix : closeMark <:+: s) :
    ∃ body rest, s = body ++ (closeMark ++ rest) ∧
      ¬ closeMark <:+: body ++ ['*'.toUInt8] := by
  induction s with
  | nil =>
      simp [closeMark] at hInfix
  | cons b s ih =>
      by_cases hHere : b = '*'.toUInt8 ∧ s.head? = some '/'.toUInt8
      · rcases hHere with ⟨rfl, hHead⟩
        cases s with
        | nil =>
            cases hHead
        | cons c t =>
            cases hHead
            refine ⟨[], t, rfl, ?_⟩
            intro hShort
            exact absurd hShort.length_le (by decide)
      · have hLater := closeMark_infix_cons.mp hInfix
        rcases ih (hLater.resolve_left hHere) with
          ⟨body, rest, rfl, hFirst⟩
        refine ⟨b :: body, rest, rfl, ?_⟩
        rw [List.cons_append, closeMark_infix_cons]
        rintro (⟨hStar, hHead⟩ | hBody)
        · apply hHere
          refine ⟨hStar, ?_⟩
          cases body with
          | nil => exact absurd (Option.some.inj hHead) star_ne_slash
          | cons c body => exact hHead
        · exact hFirst hBody

------------------------------------------------------------
-- Ends Of Lines
------------------------------------------------------------

/- A comment without marks ends in front of a line break. -/
theorem lineComment_append
    {body rest : Text}
    (hBody : Text.newline ∉ body)
    (hEnd : ∀ b ∈ rest.head?, b = Text.newline) :
    lineComment (body ++ rest) =
      (body ++ (gap rest).1, (gap rest).2) := by
  induction body with
  | nil =>
      cases rest with
      | nil =>
          rfl
      | cons b s =>
          have hNewline := hEnd b rfl
          subst hNewline
          rw [List.nil_append, gap_of_isBlank (by decide),
            lineComment.eq_def]
          simp
  | cons b body ih =>
      rw [List.mem_cons, not_or] at hBody
      rw [List.cons_append, lineComment.eq_def]
      dsimp only
      rw [if_neg (Ne.symm hBody.1), ih hBody.2]
      rfl

/- Every text has a first line. -/
theorem exists_line
    (s : Text) :
    ∃ body rest, s = body ++ rest ∧ Text.newline ∉ body ∧
      ∀ b ∈ rest.head?, b = Text.newline := by
  induction s with
  | nil =>
      exact ⟨[], [], rfl, by simp, by simp⟩
  | cons b s ih =>
      by_cases hNewline : b = Text.newline
      · refine ⟨[], b :: s, rfl, by simp, ?_⟩
        intro c hHead
        cases hHead
        exact hNewline
      · rcases ih with ⟨body, rest, rfl, hBody, hEnd⟩
        refine ⟨b :: body, rest, rfl, ?_, hEnd⟩
        rw [List.mem_cons, not_or]
        exact ⟨Ne.symm hNewline, hBody⟩

------------------------------------------------------------
-- Cutting Gaps
------------------------------------------------------------

/- An input which begins with no separator. -/
def BeginsToken (s : Text) : Prop :=
  ∀ piece rest, s = piece ++ rest → ¬ Separator piece rest

/- An input cut into a gap and what is no part of it any more. -/
structure GapCut (s front rest : Text) : Prop where
  whole : s = front ++ rest
  isGap : Gap front rest
  stops : BeginsToken rest

/- A separator is skipped. -/
theorem gap_separator
    {piece rest : Text}
    (hPiece : Separator piece rest) :
    gap (piece ++ rest) = (piece ++ (gap rest).1, (gap rest).2) := by
  cases hPiece with
  | blank hBlank =>
      exact gap_of_isBlank hBlank rest
  | line hBody hEnd =>
      rw [List.append_assoc, gap_lineMark,
        lineComment_append hBody hEnd]
      rfl
  | block hFirst =>
      have hComment := @blockComment_append false _ hFirst rest
      rw [List.append_assoc, List.append_assoc, gap_openMark,
        hComment]
      dsimp only
      rw [pushFront_mk, pushFront_mk, List.append_assoc,
        List.append_assoc]
      rfl

/- A text begins with a separator or nothing of it is skipped. -/
theorem separator_cases
    (s : Text) :
    (∃ piece rest, s = piece ++ rest ∧ piece ≠ [] ∧
      Separator piece rest) ∨
      gap s = ([], s) := by
  cases s with
  | nil =>
      exact Or.inr rfl
  | cons b s =>
      cases hBlank : Text.isBlank b with
      | true =>
          exact Or.inl ⟨[b], s, rfl, by simp, .blank hBlank s⟩
      | false =>
          rcases mark_cases b s with ⟨t, hLine⟩ | ⟨t, hBlock⟩ | hOther
          · rcases exists_line t with ⟨body, rest, rfl, hBody, hEnd⟩
            refine Or.inl ⟨lineMark ++ body, rest, ?_, ?_, ?_⟩
            · rw [hLine, List.append_assoc]
            · simp [lineMark]
            · exact .line hBody hEnd
          · by_cases hClosed : closeMark <:+: t
            · rcases exists_first_closeMark hClosed with
                ⟨body, rest, rfl, hFirst⟩
              refine Or.inl
                ⟨openMark ++ (body ++ closeMark), rest, ?_, ?_, ?_⟩
              · rw [hBlock]
                simp only [List.append_assoc]
              · simp [openMark]
              · exact .block hFirst rest
            · rw [hBlock, gap_openMark,
                blockComment_eq_none_iff.mpr hClosed]
              exact Or.inr rfl
          · exact Or.inr (gap_of_other hBlank hOther)

/- Nothing is skipped just where no separator begins. -/
theorem gap_eq_nil_iff
    {s : Text} :
    gap s = ([], s) ↔ BeginsToken s := by
  constructor
  · intro hGap piece rest hWhole hPiece
    have hSkipped := gap_separator hPiece
    rw [← hWhole, hGap, Prod.mk.injEq] at hSkipped
    have hNonempty : piece ≠ [] := by
      cases hPiece <;> simp [lineMark, openMark]
    exact hNonempty (List.append_eq_nil_iff.mp hSkipped.1.symm).1
  · intro hBegins
    rcases separator_cases s with
      ⟨piece, rest, hWhole, -, hPiece⟩ | hGap
    · exact absurd hPiece (hBegins piece rest hWhole)
    · exact hGap

/- A gap is skipped up to the first token behind it. -/
theorem gap_append
    {front rest : Text}
    (hGap : Gap front rest)
    (hBegins : BeginsToken rest) :
    gap (front ++ rest) = (front, rest) := by
  induction hGap with
  | nil rest =>
      exact gap_eq_nil_iff.mpr hBegins
  | cons hPiece _ ih =>
      rw [List.append_assoc, gap_separator hPiece, ih hBegins]

/- What is skipped is a gap, and nothing is left of it. -/
theorem gapCut_gap
    (s : Text) :
    GapCut s (gap s).1 (gap s).2 := by
  induction hLength : s.length using Nat.strongRecOn generalizing s with
  | ind n ih =>
      rcases separator_cases s with
        ⟨piece, rest, rfl, hNonempty, hPiece⟩ | hGap
      · have hShorter : rest.length < n := by
          have hPositive := List.length_pos_iff.mpr hNonempty
          rw [← hLength, List.length_append]
          omega
        have hRest := ih rest.length hShorter rest rfl
        rw [gap_separator hPiece]
        constructor
        · rw [List.append_assoc, ← hRest.whole]
        · apply Gap.cons _ hRest.isGap
          rw [← hRest.whole]
          exact hPiece
        · exact hRest.stops
      · rw [hGap]
        exact ⟨rfl, .nil s, gap_eq_nil_iff.mp hGap⟩

end Yul

end ContractLinker
