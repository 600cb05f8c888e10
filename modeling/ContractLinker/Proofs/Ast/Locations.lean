import ContractLinker.Proofs.Ast.Spans
import ContractLinker.Proofs.Report.Encoding

/-
  Locations of syntax tree nodes are exact. The numbers which
  a span gives are those of its location: no digit, sign or
  sum on the way leaves the range of 64 bits. A location with
  an end does not end before it starts, and it is the same
  after it has gone through JSON.

  Key definitions include:
    * `SourceLocation.Fits`
    * `SourceLocation.InRange`

  Main statements:
    * `SourceLocation.IntegerText.inRange`
    * `SourceLocation.SpanText.fits_add`
    * `SourceLocation.toInt_of_ofSpan`
    * `SourceLocation.ofSpan_exact`
-/

------------------------------------------------------------
-- Numbers On The Way
------------------------------------------------------------

namespace ContractLinker

namespace SourceLocation

/- A number which 64 bits hold. -/
def Fits (n : Int) : Prop :=
  Int64.minValue.toInt ≤ n ∧ n ≤ Int64.maxValue.toInt

/- The digits of an integer, without its sign. -/
def withoutSign (s : Text) : Text :=
  if s.head? = some '-'.toUInt8 then s.drop 1 else s

/-
  Each digit is added to the number of those in front, and
  the sign is changed at the end, within 64 bits.
-/
structure InRange (s : Text) : Prop where
  digits : ∀ front b back, withoutSign s = front ++ b :: back →
    Fits ((digitsValue front).toInt * 10) ∧
      Fits ((digitsValue front).toInt * 10 + Decimal.digitValue b)
  negated : Fits (-(digitsValue (withoutSign s)).toInt)

/- Numbers which are far from the ends of 64 bits. -/
theorem fits_of_natAbs_lt
    {n : Int}
    (hBound : n.natAbs < 2 * numberBound) :
    Fits n := by
  have hLow : Int64.minValue.toInt = -9223372036854775808 := by
    rfl
  have hHigh : Int64.maxValue.toInt = 9223372036854775807 := by
    rfl
  unfold numberBound at hBound
  unfold Fits
  omega

/- An integer has digits behind its sign, eighteen at most. -/
theorem IntegerText.withoutSign
    {s : Text}
    {n : Int}
    (hText : IntegerText s n) :
    (∀ b ∈ withoutSign s, Text.isDigit b = true) ∧
      (withoutSign s).length ≤ 18 := by
  cases hText with
  | unsigned hSome hLength hDigits =>
      have hSign : s.head? ≠ some '-'.toUInt8 := by
        intro hHead
        have hDigit := hDigits _ (List.mem_of_mem_head? hHead)
        exact (Decimal.digitValue_lt _ hDigit).2.1 rfl
      unfold SourceLocation.withoutSign
      rw [if_neg hSign]
      exact ⟨hDigits, hLength⟩
  | negative hSome hLength hDigits =>
      exact ⟨hDigits, hLength⟩

theorem IntegerText.inRange
    {s : Text}
    {n : Int}
    (hText : IntegerText s n) :
    InRange s := by
  rcases hText.withoutSign with ⟨hDigits, hLength⟩
  constructor
  · intro front b back hSplit
    have hBound := value_lt_numberBound hDigits hLength
    rw [hSplit] at hBound hDigits hLength
    have hStep := Decimal.value_step_le front b back
    have hFront := (List.forall_mem_append.mp hDigits).1
    rw [List.length_append] at hLength
    rw [toInt_digitsValue hFront (by omega)]
    exact ⟨fits_of_natAbs_lt (by omega), fits_of_natAbs_lt (by omega)⟩
  · have hBound := value_lt_numberBound hDigits hLength
    rw [toInt_digitsValue hDigits hLength]
    exact fits_of_natAbs_lt (by omega)

/- The sum of a start and a length is not too large either. -/
theorem SpanText.fits_add
    {span : Text}
    {start length : Int}
    (hSpan : SpanText span start length) :
    Fits (start + length) := by
  rcases hSpan with
    ⟨first, second, third, index, -, hFirst, hSecond, -⟩
  have hStart := hFirst.bound
  have hLength := hSecond.bound
  exact fits_of_natAbs_lt (by omega)

------------------------------------------------------------
-- Decoded Locations
------------------------------------------------------------

/- A span has one location, whatever its integers are written like. -/
theorem toInt_of_ofSpan
    {span : Text}
    {l : SourceLocation}
    {start length : Int}
    (hSpan : ofSpan span = .ok l)
    (hText : SpanText span start length) :
    l.start.toInt = start ∧
      l.stop.toInt =
        if start < 0 ∨ length < 0 then -1 else start + length := by
  have hParts := hText
  rcases hParts with
    ⟨first, second, third, index, -, hFirst, hSecond, -⟩
  rcases decodeInteger_of_integerText hFirst with ⟨m, -, rfl⟩
  rcases decodeInteger_of_integerText hSecond with ⟨n, -, rfl⟩
  have hStop := toInt_stopOf hFirst.bound hSecond.bound
  have hSame :
      ofSpan span = .ok ⟨[], m, stopOf m n⟩ :=
    ofSpan_eq_ok_iff.mpr ⟨_, _, hText, rfl, rfl, hStop⟩
  rw [hSpan] at hSame
  cases hSame
  exact ⟨rfl, hStop⟩

theorem ofSpan_eq_error_iff
    {span : Text}
    {e : AstError} :
    ofSpan span = .error e ↔
      e = .invalidLocation span ∧
        ¬ ∃ start length, SpanText span start length := by
  rw [← exists_ofSpan_iff]
  constructor
  · intro hFails
    constructor
    · unfold ofSpan at hFails
      split at hFails
      · cases hFails
      · cases hFails
        rfl
    · rintro ⟨l, hSpan⟩
      rw [hFails] at hSpan
      cases hSpan
  · rintro ⟨rfl, hNone⟩
    unfold ofSpan at hNone ⊢
    split
    · next hParts =>
        rw [hParts] at hNone
        exact absurd ⟨_, rfl⟩ hNone
    · rfl

/- A location which has an end does not end before it starts. -/
theorem start_le_stop
    {l : SourceLocation}
    {start length : Int}
    (hStart : l.start.toInt = start)
    (hStop :
      l.stop.toInt =
        if start < 0 ∨ length < 0 then -1 else start + length)
    (hEnd : l.stop ≠ -1) :
    l.start ≤ l.stop := by
  by_cases hNegative : start < 0 ∨ length < 0
  · rw [if_pos hNegative] at hStop
    exact absurd (Int64.toInt_inj.mp hStop) hEnd
  · rw [if_neg hNegative] at hStop
    rw [Int64.le_iff_toInt_le, hStart, hStop]
    omega

/-
  A span is decoded just if it is three integers parted by
  colons, and else it is refused as invalid. Its location
  starts at the first integer exactly, and ends behind as
  many bytes as the second one says, unless one of the two is
  negative. All numbers on the way are in the range of 64
  bits, so that the location goes through JSON unchanged.
-/
theorem ofSpan_exact
    (span : Text) :
    ((∃ l, ofSpan span = .ok l) ↔
        ∃ start length, SpanText span start length) ∧
      (∀ e, ofSpan span = .error e ↔
        e = .invalidLocation span ∧
          ¬ ∃ start length, SpanText span start length) ∧
      (∀ l start length, ofSpan span = .ok l →
        SpanText span start length →
          l.start.toInt = start ∧
            (l.stop.toInt =
              if start < 0 ∨ length < 0 then -1
              else start + length) ∧
            Fits (start + length) ∧
            (l.stop ≠ -1 → l.start ≤ l.stop) ∧
            ofJson l.toJson = .ok l) ∧
      ∀ s m, decodeInteger s = some m →
        IntegerText s m.toInt ∧ InRange s := by
  refine ⟨exists_ofSpan_iff, fun e => ofSpan_eq_error_iff, ?_, ?_⟩
  · intro l start length hSpan hText
    rcases toInt_of_ofSpan hSpan hText with ⟨hStart, hStop⟩
    exact ⟨hStart, hStop, hText.fits_add,
      start_le_stop hStart hStop, ofJson_toJson l⟩
  · intro s m hDecode
    have hText := integerText_of_decodeInteger hDecode
    exact ⟨hText, hText.inRange⟩

/- The span with the largest numbers, and zero with a sign. -/
def widestSpan : Text :=
  ascii "999999999999999999:999999999999999999:-0"

theorem spanText_widestSpan :
    SpanText widestSpan 999999999999999999 999999999999999999 := by
  have hNines :
      IntegerText (ascii "999999999999999999") 999999999999999999 :=
    .unsigned (by decide) (by decide)
      (List.all_eq_true.mp (by decide))
  have hZero : IntegerText (ascii "-0") 0 :=
    @IntegerText.negative (ascii "0") (by decide) (by decide)
      (List.all_eq_true.mp (by decide))
  exact ⟨_, _, _, _, rfl, hNines, hNines, hZero⟩

theorem ofSpan_widestSpan :
    let l : SourceLocation :=
      ⟨[], 999999999999999999, 1999999999999999998⟩
    (ofSpan widestSpan = .ok l ∧
        SpanText widestSpan 999999999999999999 999999999999999999 ∧
        l.stop ≠ -1 ∧ l.start ≤ l.stop ∧ ofJson l.toJson = .ok l) ∧
      (ofSpan (ascii "1:--2:0") =
          .error (.invalidLocation (ascii "1:--2:0")) ∧
        ¬ ∃ start length, SpanText (ascii "1:--2:0") start length) ∧
      decodeInteger (ascii "-999999999999999999") =
          some (-999999999999999999) ∧
        InRange (ascii "-999999999999999999") := by
  intro l
  have hSpan : ofSpan widestSpan = .ok l := by
    rfl
  have hEnd : l.stop ≠ -1 := by
    decide
  have hRefused :
      ofSpan (ascii "1:--2:0") =
        .error (.invalidLocation (ascii "1:--2:0")) := by
    rfl
  have hInteger :
      decodeInteger (ascii "-999999999999999999") =
        some (-999999999999999999) := by
    rfl
  rcases ofSpan_exact widestSpan with ⟨-, -, hDecoded, hIntegers⟩
  rcases hDecoded l _ _ hSpan spanText_widestSpan with
    ⟨-, -, -, hOrder, hJson⟩
  rcases ofSpan_exact (ascii "1:--2:0") with ⟨-, hFails, -⟩
  exact ⟨⟨hSpan, spanText_widestSpan, hEnd, hOrder hEnd, hJson⟩,
    ⟨hRefused, ((hFails _).mp hRefused).2⟩,
    hInteger, (hIntegers _ _ hInteger).2⟩

end SourceLocation

end ContractLinker
