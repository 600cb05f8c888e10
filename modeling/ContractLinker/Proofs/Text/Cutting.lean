import ContractLinker.Text.Basic
import Mathlib.Data.List.TakeWhile

/-
  Cutting of texts. What a cut gives is told from the text
  alone: its parts, with the byte put back between them, are
  the text, and the byte is not in the parts it was looked
  for. Trimming takes off all white space at either end.

  Key definitions include:
    * `Text.joined`
    * `Text.AllBlank`
    * `Text.Trimmed`

  Main statements:
    * `Text.cutFirst_eq_some_iff`
    * `Text.cutLast_eq_some_iff`
    * `Text.cutLast_eq_none_iff`
    * `Text.splitOn_eq_singleton_iff`
    * `Text.splitOn_eq_cons_cons_iff`
    * `Text.splitOn_eq_three_iff`
    * `Text.joined_splitOn`
    * `Text.trim_eq_iff`
-/

namespace ContractLinker

namespace Text

------------------------------------------------------------
-- The First Occurrence
------------------------------------------------------------

/- No cut is made in a text without the byte. -/
theorem cutFirst_of_notMem
    {b : UInt8}
    {s : Text}
    (hAbsent : b ∉ s) :
    cutFirst b s = none := by
  induction s with
  | nil =>
      rfl
  | cons c s ih =>
      rw [List.mem_cons, not_or] at hAbsent
      rw [cutFirst, if_neg (Ne.symm hAbsent.1), ih hAbsent.2]
      rfl

theorem cutFirst_append
    {b : UInt8}
    {front : Text}
    (hAbsent : b ∉ front)
    (back : Text) :
    cutFirst b (front ++ b :: back) = some (front, back) := by
  induction front with
  | nil =>
      rw [List.nil_append, cutFirst, if_pos rfl]
  | cons c front ih =>
      rw [List.mem_cons, not_or] at hAbsent
      rw [List.cons_append, cutFirst, if_neg (Ne.symm hAbsent.1),
        ih hAbsent.2]
      rfl

theorem cutFirst_eq_none_iff
    {b : UInt8}
    {s : Text} :
    cutFirst b s = none ↔ b ∉ s := by
  constructor
  · intro hNone hMember
    rcases List.eq_append_cons_of_mem hMember with
      ⟨front, back, rfl, hFront⟩
    rw [cutFirst_append hFront] at hNone
    cases hNone
  · exact cutFirst_of_notMem

/- A text is cut where the byte has not come before. -/
theorem cutFirst_eq_some_iff
    {b : UInt8}
    {s front back : Text} :
    cutFirst b s = some (front, back) ↔
      s = front ++ b :: back ∧ b ∉ front := by
  constructor
  · intro hCut
    by_cases hMember : b ∈ s
    · rcases List.eq_append_cons_of_mem hMember with
        ⟨front', back', rfl, hFront⟩
      rw [cutFirst_append hFront] at hCut
      cases hCut
      exact ⟨rfl, hFront⟩
    · rw [cutFirst_of_notMem hMember] at hCut
      cases hCut
  · rintro ⟨rfl, hAbsent⟩
    exact cutFirst_append hAbsent back

------------------------------------------------------------
-- The Last Occurrence
------------------------------------------------------------

/- No cut is made in a text without the byte. -/
theorem cutLast_eq_none_iff
    {b : UInt8}
    {s : Text} :
    cutLast b s = none ↔ b ∉ s := by
  induction s with
  | nil =>
      simp [cutLast]
  | cons c s ih =>
      rw [cutLast, List.mem_cons, not_or, ← ih]
      cases hRest : cutLast b s with
      | some cut =>
          simp
      | none =>
          by_cases hByte : c = b
          · simp [hByte]
          · simp [hByte, Ne.symm hByte]

/- A text is cut where the byte does not come again. -/
theorem cutLast_eq_some_iff
    {b : UInt8}
    {s front back : Text} :
    cutLast b s = some (front, back) ↔
      s = front ++ b :: back ∧ b ∉ back := by
  induction s generalizing front back with
  | nil =>
      simp [cutLast]
  | cons c s ih =>
      rw [cutLast]
      cases hRest : cutLast b s with
      | some cut =>
          rcases cut with ⟨front', back'⟩
          rcases ih.mp hRest with ⟨hRestText, hRestLast⟩
          have hSome : b ∈ s := by
            rw [hRestText]
            simp
          constructor
          · intro hCut
            cases hCut
            exact ⟨by rw [hRestText]; rfl, hRestLast⟩
          · rintro ⟨hText, hLast⟩
            cases front with
            | nil =>
                cases hText
                exact absurd hSome hLast
            | cons c' front =>
                cases hText
                have hSame := ih.mpr ⟨rfl, hLast⟩
                rw [hRest] at hSame
                cases hSame
                rfl
      | none =>
          have hAbsent := cutLast_eq_none_iff.mp hRest
          constructor
          · intro hCut
            by_cases hByte : c = b
            · rw [if_pos hByte] at hCut
              cases hCut
              exact ⟨by rw [hByte]; rfl, hAbsent⟩
            · rw [if_neg hByte] at hCut
              cases hCut
          · rintro ⟨hText, hLast⟩
            cases front with
            | nil =>
                cases hText
                rw [if_pos rfl]
            | cons c' front =>
                cases hText
                exact absurd (by simp) hAbsent

------------------------------------------------------------
-- All Occurrences
------------------------------------------------------------

theorem splitOn_ne_nil
    (b : UInt8)
    (s : Text) :
    splitOn b s ≠ [] := by
  cases s with
  | nil =>
      simp [splitOn]
  | cons c s =>
      rw [splitOn]
      split
      · simp
      · split <;> simp

/- The parts of a text are those of a list. -/
theorem splitOn_eq
    (b : UInt8)
    (s : Text) :
    splitOn b s = List.splitOn b s := by
  rw [List.splitOn_eq_splitOnP]
  induction s with
  | nil =>
      rfl
  | cons c s ih =>
      rw [splitOn, List.splitOnP_cons_eq_if_modifyHead, ← ih]
      by_cases hByte : c = b
      · rw [if_pos hByte, if_pos (beq_iff_eq.mpr hByte)]
      · rw [if_neg hByte, if_neg (mt beq_iff_eq.mp hByte)]
        rcases List.exists_cons_of_ne_nil (splitOn_ne_nil b s) with
          ⟨part, parts, hParts⟩
        rw [hParts]
        rfl

/- A text which goes on with another byte has a longer first part. -/
theorem splitOn_cons_of_ne
    {b c : UInt8}
    (hOther : c ≠ b)
    {s part : Text}
    {parts : List Text}
    (hRest : splitOn b s = part :: parts) :
    splitOn b (c :: s) = (c :: part) :: parts := by
  rw [splitOn, if_neg hOther, hRest]

/- A text without the byte is its only part. -/
theorem splitOn_of_notMem
    {b : UInt8}
    {s : Text}
    (hAbsent : b ∉ s) :
    splitOn b s = [s] := by
  induction s with
  | nil =>
      rfl
  | cons c s ih =>
      rw [List.mem_cons, not_or] at hAbsent
      exact splitOn_cons_of_ne (Ne.symm hAbsent.1) (ih hAbsent.2)

/- The first part ends at the first occurrence of the byte. -/
theorem splitOn_append
    {b : UInt8}
    {part : Text}
    (hAbsent : b ∉ part)
    (back : Text) :
    splitOn b (part ++ b :: back) = part :: splitOn b back := by
  induction part with
  | nil =>
      rw [List.nil_append, splitOn, if_pos rfl]
  | cons c part ih =>
      rw [List.mem_cons, not_or] at hAbsent
      exact splitOn_cons_of_ne (Ne.symm hAbsent.1) (ih hAbsent.2)

theorem splitOn_eq_singleton_iff
    {b : UInt8}
    {s part : Text} :
    splitOn b s = [part] ↔ s = part ∧ b ∉ part := by
  constructor
  · intro hParts
    by_cases hMember : b ∈ s
    · rcases List.eq_append_cons_of_mem hMember with
        ⟨front, back, rfl, hFront⟩
      rw [splitOn_append hFront, List.cons.injEq] at hParts
      exact absurd hParts.2 (splitOn_ne_nil b back)
    · rw [splitOn_of_notMem hMember] at hParts
      cases hParts
      exact ⟨rfl, hMember⟩
  · rintro ⟨rfl, hAbsent⟩
    exact splitOn_of_notMem hAbsent

theorem splitOn_eq_cons_cons_iff
    {b : UInt8}
    {s part next : Text}
    {parts : List Text} :
    splitOn b s = part :: next :: parts ↔
      ∃ back, s = part ++ b :: back ∧ b ∉ part ∧
        splitOn b back = next :: parts := by
  constructor
  · intro hParts
    by_cases hMember : b ∈ s
    · rcases List.eq_append_cons_of_mem hMember with
        ⟨front, back, rfl, hFront⟩
      rw [splitOn_append hFront, List.cons.injEq] at hParts
      rcases hParts with ⟨rfl, hRest⟩
      exact ⟨back, rfl, hFront, hRest⟩
    · rw [splitOn_of_notMem hMember] at hParts
      cases hParts
  · rintro ⟨back, rfl, hAbsent, hRest⟩
    rw [splitOn_append hAbsent, hRest]

/- The parts behind an occurrence of the byte are parts of the whole. -/
theorem splitOn_append_cons
    (b : UInt8)
    (front back : Text) :
    splitOn b (front ++ b :: back) =
      splitOn b front ++ splitOn b back := by
  induction front with
  | nil =>
      exact splitOn_append List.not_mem_nil back
  | cons c front ih =>
      by_cases hByte : c = b
      · rw [List.cons_append, splitOn, if_pos hByte, ih, splitOn,
          if_pos hByte]
        rfl
      · rcases List.exists_cons_of_ne_nil (splitOn_ne_nil b front)
          with ⟨part, parts, hParts⟩
        rw [hParts] at ih
        rw [List.cons_append, splitOn_cons_of_ne hByte ih,
          splitOn_cons_of_ne hByte hParts]
        rfl

/- Three parts are those between two occurrences of the byte. -/
theorem splitOn_eq_three_iff
    {b : UInt8}
    {s first second third : Text} :
    splitOn b s = [first, second, third] ↔
      s = first ++ b :: (second ++ b :: third) ∧
        b ∉ first ∧ b ∉ second ∧ b ∉ third := by
  rw [splitOn_eq_cons_cons_iff]
  constructor
  · rintro ⟨back, rfl, hFirst, hBack⟩
    rcases splitOn_eq_cons_cons_iff.mp hBack with
      ⟨rest, rfl, hSecond, hRest⟩
    rcases splitOn_eq_singleton_iff.mp hRest with ⟨rfl, hThird⟩
    exact ⟨rfl, hFirst, hSecond, hThird⟩
  · rintro ⟨rfl, hFirst, hSecond, hThird⟩
    refine ⟨_, rfl, hFirst, splitOn_eq_cons_cons_iff.mpr ?_⟩
    exact ⟨third, rfl, hSecond,
      splitOn_eq_singleton_iff.mpr ⟨rfl, hThird⟩⟩

------------------------------------------------------------
-- Parts Put Together
------------------------------------------------------------

/- Some parts as one text, with a byte between them. -/
def joined (b : UInt8) : List Text → Text
  | [] => []
  | [part] => part
  | part :: next :: parts => part ++ b :: joined b (next :: parts)

/- What stands behind a part if the given ones come next. -/
def joinedBehind (b : UInt8) (parts : List Text) : Text :=
  if parts.isEmpty then [] else b :: joined b parts

theorem joined_cons
    (b : UInt8)
    (part : Text)
    (parts : List Text) :
    joined b (part :: parts) = part ++ joinedBehind b parts := by
  cases parts with
  | nil => exact (List.append_nil part).symm
  | cons next parts => rfl

theorem joinedBehind_of_ne_nil
    {b : UInt8}
    {parts : List Text}
    (hSome : parts ≠ []) :
    joinedBehind b parts = b :: joined b parts := by
  exact if_neg (mt List.isEmpty_iff.mp hSome)

/- A text is put together from its parts. -/
theorem joined_splitOn
    (b : UInt8)
    (s : Text) :
    joined b (splitOn b s) = s := by
  induction s with
  | nil =>
      rfl
  | cons c s ih =>
      by_cases hByte : c = b
      · rw [splitOn, if_pos hByte, joined_cons,
          joinedBehind_of_ne_nil (splitOn_ne_nil b s), ih, hByte]
        rfl
      · rcases List.exists_cons_of_ne_nil (splitOn_ne_nil b s) with
          ⟨part, parts, hParts⟩
        rw [hParts, joined_cons] at ih
        rw [splitOn_cons_of_ne hByte hParts, joined_cons,
          List.cons_append, ih]

------------------------------------------------------------
-- White Space At The Ends
------------------------------------------------------------

/- White space and nothing else. -/
def AllBlank (s : Text) : Prop :=
  ∀ b ∈ s, isBlank b = true

instance (s : Text) : Decidable (AllBlank s) :=
  inferInstanceAs (Decidable (∀ b ∈ s, _))

/- A text which neither begins nor ends with white space. -/
def Trimmed (s : Text) : Prop :=
  (∀ b ∈ s.head?, isBlank b = false) ∧
    ∀ b ∈ s.getLast?, isBlank b = false

/- What is left when white space in front is dropped. -/
theorem exists_dropWhile
    (s : Text) :
    ∃ front, AllBlank front ∧
      s = front ++ s.dropWhile isBlank ∧
      ∀ b ∈ (s.dropWhile isBlank).head?, isBlank b = false := by
  refine ⟨s.takeWhile isBlank, ?_, ?_, ?_⟩
  · intro b hMember
    exact List.mem_takeWhile_imp hMember
  · exact List.takeWhile_append_dropWhile.symm
  · intro b hHead
    have hFirst := List.head?_dropWhile_not isBlank s
    rw [hHead] at hFirst
    simpa using hFirst

theorem dropWhile_eq_self
    {s : Text}
    (hHead : ∀ b ∈ s.head?, isBlank b = false) :
    s.dropWhile isBlank = s := by
  cases s with
  | nil =>
      rfl
  | cons b s =>
      exact List.dropWhile_cons_of_neg (by simp [hHead b rfl])

/- White space around a text which has none at its ends is dropped. -/
theorem trim_append
    {front t back : Text}
    (hFront : AllBlank front)
    (hTrimmed : Trimmed t)
    (hBack : AllBlank back) :
    (front ++ (t ++ back)).trim = t := by
  have hBack' : ∀ b ∈ back.reverse, isBlank b = true := by
    intro b hMember
    exact hBack b (List.mem_reverse.mp hMember)
  unfold trim
  rw [List.dropWhile_append_of_pos hFront]
  cases t with
  | nil =>
      have hNone : back.dropWhile isBlank = [] := by
        rw [List.dropWhile_eq_nil_iff]
        exact hBack
      rw [List.nil_append, hNone]
      rfl
  | cons c t =>
      have hWhole :
          (c :: t ++ back).dropWhile isBlank = c :: t ++ back :=
        dropWhile_eq_self hTrimmed.1
      rw [hWhole, List.reverse_append,
        List.dropWhile_append_of_pos hBack',
        dropWhile_eq_self, List.reverse_reverse]
      rw [List.head?_reverse]
      exact hTrimmed.2

/- Trimming a text leaves what stands between its outer white space. -/
theorem trim_eq_iff
    {s t : Text} :
    s.trim = t ↔
      Trimmed t ∧ ∃ front back, AllBlank front ∧ AllBlank back ∧
        s = front ++ (t ++ back) := by
  constructor
  · rintro rfl
    rcases exists_dropWhile s with ⟨front, hFront, hText, hHead⟩
    rcases exists_dropWhile (s.dropWhile isBlank).reverse with
      ⟨back, hBack, hRest, hLast⟩
    have hKept : s.dropWhile isBlank = s.trim ++ back.reverse := by
      rw [← List.reverse_inj, List.reverse_append, trim,
        List.reverse_reverse, List.reverse_reverse]
      exact hRest
    refine ⟨⟨?_, ?_⟩, front, back.reverse, hFront, ?_, ?_⟩
    · intro b hFirst
      apply hHead
      rw [hKept, List.head?_append, hFirst]
      rfl
    · intro b hEnd
      apply hLast
      rw [trim, List.getLast?_reverse] at hEnd
      exact hEnd
    · intro b hMember
      exact hBack b (List.mem_reverse.mp hMember)
    · rw [← hKept]
      exact hText
  · rintro ⟨hTrimmed, front, back, hFront, hBack, rfl⟩
    exact trim_append hFront hTrimmed hBack

end Text

end ContractLinker
