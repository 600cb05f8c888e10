import ContractLinker.Ast.Location
import ContractLinker.Proofs.Text.Cutting
import ContractLinker.Proofs.Text.Decimal

/-
  Spans of syntax tree nodes. A span is read just if it is
  three integers parted by colons, and then the location has
  exactly the numbers which the integers denote: eighteen
  digits, and the sum of two such numbers, fit 64 bits.

  Key definitions include:
    * `SourceLocation.IntegerText`
    * `SourceLocation.SpanText`
    * `SourceLocation.Locates`

  Main statements:
    * `SourceLocation.decodeInteger_eq_some_iff`
    * `SourceLocation.ofSpan_eq_ok_iff`
    * `SourceLocation.exists_ofSpan_iff`
-/

------------------------------------------------------------
-- Digits
------------------------------------------------------------

namespace ContractLinker

namespace SourceLocation

/- The arithmetic of 64 bits goes along with that of numbers. -/
theorem digitsValue_eq
    (digits : Text) :
    digitsValue digits = Int64.ofNat (Decimal.value digits) := by
  induction digits using List.reverseRecOn with
  | nil =>
      rfl
  | append_singleton digits b ih =>
      rw [Decimal.value_concat, Int64.ofNat_add, Int64.ofNat_mul, ← ih]
      unfold digitsValue
      rw [List.foldl_append]
      rfl

/- The largest number of eighteen digits, and one more. -/
def numberBound : Nat :=
  1000000000000000000

theorem value_lt_numberBound
    {digits : Text}
    (hDigits : ∀ b ∈ digits, Text.isDigit b = true)
    (hLength : digits.length ≤ 18) :
    Decimal.value digits < numberBound := by
  calc
    Decimal.value digits < 10 ^ digits.length :=
      Decimal.value_lt hDigits
    _ ≤ 10 ^ 18 := Nat.pow_le_pow_right (by decide) hLength
    _ = numberBound := by decide

theorem toInt_digitsValue
    {digits : Text}
    (hDigits : ∀ b ∈ digits, Text.isDigit b = true)
    (hLength : digits.length ≤ 18) :
    (digitsValue digits).toInt = Decimal.value digits := by
  have hBound := value_lt_numberBound hDigits hLength
  unfold numberBound at hBound
  rw [digitsValue_eq, Int64.toInt_ofNat_of_lt (by omega)]

------------------------------------------------------------
-- Integers
------------------------------------------------------------

/-
  One to eighteen digits behind an optional minus sign, and
  the number which they denote.
-/
inductive IntegerText : Text → Int → Prop where
  | unsigned {digits : Text}
      (hSome : digits ≠ [])
      (hLength : digits.length ≤ 18)
      (hDigits : ∀ b ∈ digits, Text.isDigit b = true) :
      IntegerText digits (Decimal.value digits)
  | negative {digits : Text}
      (hSome : digits ≠ [])
      (hLength : digits.length ≤ 18)
      (hDigits : ∀ b ∈ digits, Text.isDigit b = true) :
      IntegerText ('-'.toUInt8 :: digits) (-(Decimal.value digits : Int))

/- Some digits are decoded just if they are few enough. -/
theorem decodable_iff
    {digits : Text} :
    (digits.isEmpty || decide (18 < digits.length) ||
        !digits.all Text.isDigit) = false ↔
      digits ≠ [] ∧ digits.length ≤ 18 ∧
        ∀ b ∈ digits, Text.isDigit b = true := by
  rw [Bool.or_eq_false_iff, Bool.or_eq_false_iff,
    Bool.not_eq_false', List.all_eq_true, List.isEmpty_eq_false_iff,
    decide_eq_false_iff_not, Nat.not_lt, and_assoc]

theorem decodeInteger_negative
    (digits : Text) :
    decodeInteger ('-'.toUInt8 :: digits) =
      if digits.isEmpty || decide (18 < digits.length) ||
          !digits.all Text.isDigit then
        none
      else
        some (-(digitsValue digits)) := by
  rfl

theorem decodeInteger_unsigned
    {s : Text}
    (hSign : s.head? ≠ some '-'.toUInt8) :
    decodeInteger s =
      if s.isEmpty || decide (18 < s.length) ||
          !s.all Text.isDigit then
        none
      else
        some (digitsValue s) := by
  unfold decodeInteger
  simp only [hSign, if_false]

theorem toInt_neg
    {n : Int64}
    (hBound : n.toInt.natAbs < numberBound) :
    (-n).toInt = -n.toInt := by
  unfold numberBound at hBound
  rw [Int64.toInt_neg, Int.bmod_eq_of_le_mul_two] <;> omega

theorem toInt_add
    {m n : Int64}
    (hBound : m.toInt.natAbs < numberBound)
    (hBound' : n.toInt.natAbs < numberBound) :
    (m + n).toInt = m.toInt + n.toInt := by
  unfold numberBound at hBound hBound'
  rw [Int64.toInt_add, Int.bmod_eq_of_le_mul_two] <;> omega

/- An integer is decoded as the number which it denotes. -/
theorem decodeInteger_of_integerText
    {s : Text}
    {n : Int}
    (hText : IntegerText s n) :
    ∃ m, decodeInteger s = some m ∧ m.toInt = n := by
  cases hText with
  | unsigned hSome hLength hDigits =>
      have hSign : s.head? ≠ some '-'.toUInt8 := by
        intro hHead
        have hDigit := hDigits _ (List.mem_of_mem_head? hHead)
        exact (Decimal.digitValue_lt _ hDigit).2.1 rfl
      have hTest := decodable_iff.mpr ⟨hSome, hLength, hDigits⟩
      refine ⟨digitsValue s, ?_, toInt_digitsValue hDigits hLength⟩
      rw [decodeInteger_unsigned hSign, hTest]
      rfl
  | @negative digits hSome hLength hDigits =>
      have hValue := toInt_digitsValue hDigits hLength
      have hBound := value_lt_numberBound hDigits hLength
      have hTest := decodable_iff.mpr ⟨hSome, hLength, hDigits⟩
      refine ⟨-(digitsValue digits), ?_, ?_⟩
      · rw [decodeInteger_negative, hTest]
        rfl
      · rw [toInt_neg (by omega), hValue]

/- What is decoded is an integer. -/
theorem integerText_of_decodeInteger
    {s : Text}
    {m : Int64}
    (hDecode : decodeInteger s = some m) :
    IntegerText s m.toInt := by
  by_cases hSign : s.head? = some '-'.toUInt8
  · rcases List.head?_eq_some_iff.mp hSign with ⟨digits, rfl⟩
    rw [decodeInteger_negative] at hDecode
    split at hDecode
    · cases hDecode
    · next hTest =>
        cases hDecode
        rw [Bool.not_eq_true] at hTest
        rcases decodable_iff.mp hTest with ⟨hSome, hLength, hDigits⟩
        have hValue := toInt_digitsValue hDigits hLength
        have hBound := value_lt_numberBound hDigits hLength
        rw [toInt_neg (by omega), hValue]
        exact IntegerText.negative hSome hLength hDigits
  · rw [decodeInteger_unsigned hSign] at hDecode
    split at hDecode
    · cases hDecode
    · next hTest =>
        cases hDecode
        rw [Bool.not_eq_true] at hTest
        rcases decodable_iff.mp hTest with ⟨hSome, hLength, hDigits⟩
        rw [toInt_digitsValue hDigits hLength]
        exact IntegerText.unsigned hSome hLength hDigits

theorem decodeInteger_eq_some_iff
    {s : Text}
    {m : Int64} :
    decodeInteger s = some m ↔ IntegerText s m.toInt := by
  constructor
  · exact integerText_of_decodeInteger
  · intro hText
    rcases decodeInteger_of_integerText hText with
      ⟨m', hDecode, hSame⟩
    rw [hDecode, Int64.toInt_inj.mp hSame]

/- Numbers of integers are far from the ends of 64 bits. -/
theorem IntegerText.bound
    {s : Text}
    {n : Int}
    (hText : IntegerText s n) :
    n.natAbs < numberBound := by
  cases hText with
  | unsigned hSome hLength hDigits =>
      exact value_lt_numberBound hDigits hLength
  | negative hSome hLength hDigits =>
      have hBound := value_lt_numberBound hDigits hLength
      omega

theorem IntegerText.colon_notMem
    {s : Text}
    {n : Int}
    (hText : IntegerText s n) :
    ':'.toUInt8 ∉ s := by
  have hNone :
      ∀ digits : Text, (∀ b ∈ digits, Text.isDigit b = true) →
        ':'.toUInt8 ∉ digits := by
    intro digits hDigits hMember
    exact (Decimal.digitValue_lt _ (hDigits _ hMember)).2.2.1 rfl
  cases hText with
  | unsigned hSome hLength hDigits =>
      exact hNone s hDigits
  | negative hSome hLength hDigits =>
      rw [List.mem_cons, not_or]
      exact ⟨by decide, hNone _ hDigits⟩

------------------------------------------------------------
-- Spans
------------------------------------------------------------

/- A start, a length and an index, parted by colons. -/
def SpanText (span : Text) (start length : Int) : Prop :=
  ∃ first second third index,
    span = first ++ ':'.toUInt8 :: (second ++ ':'.toUInt8 :: third) ∧
      IntegerText first start ∧ IntegerText second length ∧
      IntegerText third index

theorem SpanText.ne_nil
    {span : Text}
    {start length : Int}
    (hSpan : SpanText span start length) :
    span ≠ [] := by
  rcases hSpan with ⟨first, second, third, index, rfl, -⟩
  simp

/-
  The location of a span: its start, and the end which its
  length gives, or -1 if one of the two is below zero.
-/
def Locates (span : Text) (l : SourceLocation) : Prop :=
  ∃ start length, SpanText span start length ∧
    l.file = [] ∧ l.start.toInt = start ∧
    l.stop.toInt =
      if start < 0 ∨ length < 0 then -1 else start + length

theorem toInt_stopOf
    {start length : Int64}
    (hStart : start.toInt.natAbs < numberBound)
    (hLength : length.toInt.natAbs < numberBound) :
    (stopOf start length).toInt =
      if start.toInt < 0 ∨ length.toInt < 0 then -1
      else start.toInt + length.toInt := by
  have hTest :
      (decide (start < 0) || decide (length < 0)) = true ↔
        start.toInt < 0 ∨ length.toInt < 0 := by
    rw [Bool.or_eq_true, decide_eq_true_iff, decide_eq_true_iff,
      Int64.lt_iff_toInt_lt, Int64.lt_iff_toInt_lt]
    rfl
  unfold stopOf
  by_cases hNegative : start.toInt < 0 ∨ length.toInt < 0
  · rw [if_pos hNegative, if_pos (hTest.mpr hNegative)]
    rfl
  · rw [if_neg hNegative, if_neg (mt hTest.mp hNegative)]
    exact toInt_add hStart hLength

/- A span is taken if it has three parts which are decoded. -/
theorem ofSpan_eq_ok
    {span : Text}
    {l : SourceLocation}
    (hSpan : ofSpan span = .ok l) :
    ∃ first second third start length index,
      span.splitOn ':'.toUInt8 = [first, second, third] ∧
      decodeInteger first = some start ∧
      decodeInteger second = some length ∧
      decodeInteger third = some index ∧
      l = { file := [], start, stop := stopOf start length } := by
  unfold ofSpan at hSpan
  split at hSpan
  · next start length index hParts =>
      cases hSpan
      rcases List.map_eq_cons_iff.mp hParts with
        ⟨first, rest, hSplit, hFirst, hRest⟩
      rcases List.map_eq_cons_iff.mp hRest with
        ⟨second, rest', rfl, hSecond, hRest'⟩
      rcases List.map_eq_singleton_iff.mp hRest' with
        ⟨third, rfl, hThird⟩
      exact ⟨first, second, third, start, length, index, hSplit,
        hFirst, hSecond, hThird, rfl⟩
  · cases hSpan

/-
  Only a text of three integers is taken for a span, and its
  location is the one which the numbers give.
-/
theorem ofSpan_eq_ok_iff
    {span : Text}
    {l : SourceLocation} :
    ofSpan span = .ok l ↔ Locates span l := by
  constructor
  · intro hSpan
    rcases ofSpan_eq_ok hSpan with
      ⟨first, second, third, start, length, index, hSplit, hFirst,
        hSecond, hThird, rfl⟩
    rw [decodeInteger_eq_some_iff] at hFirst hSecond hThird
    refine ⟨start.toInt, length.toInt, ?_, rfl, rfl,
      toInt_stopOf hFirst.bound hSecond.bound⟩
    exact ⟨first, second, third, index.toInt,
      (Text.splitOn_eq_three_iff.mp hSplit).1, hFirst, hSecond, hThird⟩
  · rintro ⟨start, length, hText, hFile, hStart, hStop⟩
    rcases hText with
      ⟨first, second, third, index, hParts, hFirst, hSecond, hThird⟩
    have hSplit :=
      Text.splitOn_eq_three_iff.mpr ⟨hParts, hFirst.colon_notMem,
        hSecond.colon_notMem, hThird.colon_notMem⟩
    rcases decodeInteger_of_integerText hFirst with
      ⟨m, hDecode, rfl⟩
    rcases decodeInteger_of_integerText hSecond with
      ⟨n, hDecode', rfl⟩
    rcases decodeInteger_of_integerText hThird with
      ⟨k, hDecode'', rfl⟩
    rw [← toInt_stopOf hFirst.bound hSecond.bound, Int64.toInt_inj]
      at hStop
    rw [Int64.toInt_inj] at hStart
    rcases l with ⟨file, start, stop⟩
    dsimp only at hFile hStart hStop
    subst hFile hStart hStop
    unfold ofSpan
    rw [hSplit, List.map_cons, List.map_cons, List.map_singleton,
      hDecode, hDecode', hDecode'']

/- Every text of three integers is taken for a span. -/
theorem exists_ofSpan_iff
    {span : Text} :
    (∃ l, ofSpan span = .ok l) ↔
      ∃ start length, SpanText span start length := by
  constructor
  · rintro ⟨l, hSpan⟩
    rcases ofSpan_eq_ok_iff.mp hSpan with ⟨start, length, hText, -⟩
    exact ⟨start, length, hText⟩
  · rintro ⟨start, length, hText⟩
    have hParts := hText
    rcases hParts with
      ⟨first, second, third, index, -, hFirst, hSecond, -⟩
    rcases decodeInteger_of_integerText hFirst with ⟨m, -, rfl⟩
    rcases decodeInteger_of_integerText hSecond with ⟨n, -, rfl⟩
    refine ⟨{ file := [], start := m, stop := stopOf m n }, ?_⟩
    exact ofSpan_eq_ok_iff.mpr ⟨m.toInt, n.toInt, hText, rfl, rfl,
      toInt_stopOf hFirst.bound hSecond.bound⟩

end SourceLocation

end ContractLinker
