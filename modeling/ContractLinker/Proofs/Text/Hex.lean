import ContractLinker.Text.Hex
import ContractLinker.Proofs.Text.Utf8
import Mathlib.Data.Nat.Digits.Defs

/-
  Hexadecimal numerals and the numbers they denote. Zeros in
  front of a numeral change neither its number nor the cases
  of its letters, and numerals of one width are the same text
  if they agree in both.

  Key definitions include:
    * `Hex.digitValue`
    * `Hex.number`
    * `Hex.letterCases`
    * `Hex.Alike`

  Main statements:
    * `Hex.number_padLeft`
    * `Hex.eq_of_alike`
    * `Hex.padLeft_eq_iff`
-/

------------------------------------------------------------
-- Numbers And Letters
------------------------------------------------------------

namespace ContractLinker

namespace Hex

/- The value of a digit of either case. -/
def digitValue (b : UInt8) : Nat :=
  ((value? b).getD 0).toNat

/- The number which digits denote, the most significant one first. -/
def number (s : Text) : Nat :=
  Nat.ofDigits 16 (s.reverse.map digitValue)

/- The case of a digit which is a letter. -/
def letterCase? (b : UInt8) : Option Case :=
  if 'a'.toUInt8 ≤ b && b ≤ 'f'.toUInt8 then
    some .lower
  else if 'A'.toUInt8 ≤ b && b ≤ 'F'.toUInt8 then
    some .upper
  else
    none

/- The cases of the letters among some digits, in their order. -/
def letterCases (s : Text) : List Case :=
  s.filterMap letterCase?

/- Digits of one number, each of whose letters has one case in both. -/
def Alike (s t : Text) : Prop :=
  number s = number t ∧ letterCases s = letterCases t

instance (s t : Text) : Decidable (Alike s t) :=
  inferInstanceAs (Decidable (_ ∧ _))

/- A text of digits and nothing else. -/
def AllDigits (s : Text) : Prop :=
  ∀ b ∈ s, (value? b).isSome

instance (s : Text) : Decidable (AllDigits s) :=
  inferInstanceAs (Decidable (∀ b ∈ s, _))

------------------------------------------------------------
-- Single Digits
------------------------------------------------------------

/- A digit is determined by its value and, as a letter, by its case. -/
theorem digit_cases :
    ∀ b : UInt8, (value? b).isSome →
      digitValue b < 16 ∧
        ((letterCase? b).isSome ↔ 10 ≤ digitValue b) ∧
        digit ((letterCase? b).getD .lower)
          (UInt8.ofNat (digitValue b)) = b ∧
        b ≠ ':'.toUInt8 := by
  apply Utf8.forall_byte
  decide +kernel

theorem digit_injective
    {b c : UInt8}
    (hDigit : (value? b).isSome)
    (hDigit' : (value? c).isSome)
    (hValue : digitValue b = digitValue c)
    (hCase : letterCase? b = letterCase? c) :
    b = c := by
  rw [← (digit_cases b hDigit).2.2.1, ← (digit_cases c hDigit').2.2.1,
    hValue, hCase]

/- Digits of one value are both letters or both none. -/
theorem isSome_letterCase?_eq
    {b c : UInt8}
    (hDigit : (value? b).isSome)
    (hDigit' : (value? c).isSome)
    (hValue : digitValue b = digitValue c) :
    (letterCase? b).isSome ↔ (letterCase? c).isSome := by
  rw [(digit_cases b hDigit).2.1, (digit_cases c hDigit').2.1, hValue]

------------------------------------------------------------
-- Numerals
------------------------------------------------------------

/- Zeros in front do not change the number. -/
theorem number_padLeft
    (width : Nat)
    (s : Text) :
    number (s.padLeft width) = number s := by
  have hZero : digitValue '0'.toUInt8 = 0 := by
    decide
  unfold number Text.padLeft
  rw [List.reverse_append, List.reverse_replicate, List.map_append,
    List.map_replicate, hZero, Nat.ofDigits_append_replicate_zero]

/- Zeros in front are no letters. -/
theorem letterCases_padLeft
    (width : Nat)
    (s : Text) :
    letterCases (s.padLeft width) = letterCases s := by
  have hZero : letterCase? '0'.toUInt8 = none := by
    decide
  unfold letterCases Text.padLeft
  rw [List.filterMap_append, List.filterMap_replicate_of_none hZero,
    List.nil_append]

theorem allDigits_padLeft
    {s : Text}
    (hDigits : AllDigits s)
    (width : Nat) :
    AllDigits (s.padLeft width) := by
  intro b hMember
  rcases List.mem_append.mp hMember with hZero | hDigit
  · rw [List.eq_of_mem_replicate hZero]
    decide
  · exact hDigits b hDigit

theorem length_padLeft
    {s : Text}
    {width : Nat}
    (hLength : s.length ≤ width) :
    (s.padLeft width).length = width := by
  unfold Text.padLeft
  rw [List.length_append, List.length_replicate]
  omega

/- Digits of one width denote different numbers if their values differ. -/
theorem map_digitValue_eq
    {s t : Text}
    (hDigits : AllDigits s)
    (hDigits' : AllDigits t)
    (hLength : s.length = t.length)
    (hNumber : number s = number t) :
    s.map digitValue = t.map digitValue := by
  have hBound : ∀ u : Text, AllDigits u →
      ∀ v ∈ u.reverse.map digitValue, v < 16 := by
    intro u hAll v hMember
    rcases List.mem_map.mp hMember with ⟨b, hByte, rfl⟩
    exact (digit_cases b (hAll b (List.mem_reverse.mp hByte))).1
  have hReverse :
      s.reverse.map digitValue = t.reverse.map digitValue :=
    Nat.ofDigits_inj_of_len_eq (by decide) (by simp [hLength])
      (hBound s hDigits) (hBound t hDigits') hNumber
  rw [List.map_reverse, List.map_reverse] at hReverse
  exact List.reverse_inj.mp hReverse

/- The letters of two texts are compared one by one. -/
theorem letterCases_cons_inj
    {b c : UInt8}
    {s t : Text}
    (hLetter : (letterCase? b).isSome ↔ (letterCase? c).isSome)
    (hCases : letterCases (b :: s) = letterCases (c :: t)) :
    letterCase? b = letterCase? c ∧ letterCases s = letterCases t := by
  unfold letterCases at hCases ⊢
  rw [List.filterMap_cons, List.filterMap_cons] at hCases
  cases hFirst : letterCase? b with
  | none =>
      rw [hFirst, Option.isSome_none, Bool.false_eq_true, false_iff,
        Bool.not_eq_true, Option.isSome_eq_false_iff,
        Option.isNone_iff_eq_none] at hLetter
      rw [hFirst, hLetter] at hCases
      exact ⟨hLetter.symm, hCases⟩
  | some first =>
      have hSome : (letterCase? c).isSome :=
        hLetter.mp (Option.isSome_iff_exists.mpr ⟨first, hFirst⟩)
      rcases Option.isSome_iff_exists.mp hSome with ⟨other, hOther⟩
      rw [hFirst, hOther] at hCases
      rcases List.cons.inj hCases with ⟨hSame, hTail⟩
      rw [hOther, hSame]
      exact ⟨rfl, hTail⟩

/- The induction is on the digits, the letters going along with them. -/
theorem eq_of_map_digitValue_eq
    {s t : Text}
    (hDigits : AllDigits s)
    (hDigits' : AllDigits t)
    (hValues : s.map digitValue = t.map digitValue)
    (hCases : letterCases s = letterCases t) :
    s = t := by
  induction s generalizing t with
  | nil =>
      exact (List.map_eq_nil_iff.mp hValues.symm).symm
  | cons b s ih =>
      cases t with
      | nil =>
          cases hValues
      | cons c t =>
          rcases List.cons.inj hValues with ⟨hValue, hRest⟩
          rcases List.forall_mem_cons.mp hDigits with ⟨hDigit, hTail⟩
          rcases List.forall_mem_cons.mp hDigits' with
            ⟨hDigit', hTail'⟩
          have hLetter := isSome_letterCase?_eq hDigit hDigit' hValue
          rcases letterCases_cons_inj hLetter hCases with
            ⟨hCase, hOthers⟩
          rw [digit_injective hDigit hDigit' hValue hCase,
            ih hTail hTail' hRest hOthers]

/- Digits of one width are the same text if they are alike. -/
theorem eq_of_alike
    {s t : Text}
    (hDigits : AllDigits s)
    (hDigits' : AllDigits t)
    (hLength : s.length = t.length)
    (hAlike : Alike s t) :
    s = t := by
  apply eq_of_map_digitValue_eq hDigits hDigits' _ hAlike.2
  exact map_digitValue_eq hDigits hDigits' hLength hAlike.1

/- Numerals become the same when they are padded if they are alike. -/
theorem padLeft_eq_iff
    {s t : Text}
    {width : Nat}
    (hDigits : AllDigits s)
    (hDigits' : AllDigits t)
    (hLength : s.length ≤ width)
    (hLength' : t.length ≤ width) :
    s.padLeft width = t.padLeft width ↔ Alike s t := by
  constructor
  · intro hSame
    constructor
    · rw [← number_padLeft width s, hSame, number_padLeft]
    · rw [← letterCases_padLeft width s, hSame, letterCases_padLeft]
  · intro hAlike
    apply eq_of_alike (allDigits_padLeft hDigits width)
      (allDigits_padLeft hDigits' width)
    · rw [length_padLeft hLength, length_padLeft hLength']
    · constructor
      · rw [number_padLeft, number_padLeft, hAlike.1]
      · rw [letterCases_padLeft, letterCases_padLeft, hAlike.2]

------------------------------------------------------------
-- Other Bytes
------------------------------------------------------------

/- No numeral has a colon in it, with or without a mark. -/
theorem colon_notMem_of_isNumeral
    {s : Text}
    (hNumeral : isNumeral s = true) :
    ':'.toUInt8 ∉ s := by
  have hDigits : ∀ b ∈ dropMark s, (value? b).isSome := by
    unfold isNumeral at hNumeral
    rw [Bool.and_eq_true, List.all_eq_true] at hNumeral
    exact hNumeral.2
  have hDropped : ':'.toUInt8 ∉ dropMark s := by
    intro hMember
    exact (digit_cases _ (hDigits _ hMember)).2.2.2 rfl
  unfold dropMark at hDropped
  by_cases hMark : mark.isPrefixOf s = true
  · rw [if_pos hMark] at hDropped
    rcases List.isPrefixOf_iff_prefix.mp hMark with ⟨rest, rfl⟩
    rw [List.drop_left] at hDropped
    intro hMember
    rcases List.mem_append.mp hMember with hFront | hRest
    · exact absurd hFront (by decide)
    · exact hDropped hRest
  · rw [if_neg hMark] at hDropped
    exact hDropped

end Hex

end ContractLinker
