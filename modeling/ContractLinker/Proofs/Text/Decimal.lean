import ContractLinker.Text.Decimal
import ContractLinker.Proofs.Text.Utf8
import Mathlib.Algebra.Group.Nat.Defs
import Mathlib.Data.List.Basic
import Mathlib.Data.List.Induction

/-
  Decimal numerals denote the numbers they are written for,
  and have no zero in front that is not needed. Digits with
  no such zero are the numeral of the number they denote.

  Main statements:
    * `Decimal.value_step_le`
    * `Decimal.value_lt`
    * `Decimal.value_ofNat`
    * `Decimal.isDigit_of_mem_ofNat`
    * `Decimal.ofNat_eq_cons`
    * `Decimal.ofNat_value`
    * `Decimal.length_ofNat_le`
-/

namespace ContractLinker

namespace Decimal

------------------------------------------------------------
-- Values Of Digits
------------------------------------------------------------

/- A digit stands for a number below ten, and for no mark or sign. -/
theorem digitValue_lt :
    ∀ b : UInt8, Text.isDigit b = true →
      digitValue b < 10 ∧ b ≠ '-'.toUInt8 ∧ b ≠ ':'.toUInt8 ∧
        b ≠ '.'.toUInt8 ∧ b ≠ '+'.toUInt8 := by
  apply Utf8.forall_byte
  decide +kernel

theorem value_concat
    (digits : Text)
    (b : UInt8) :
    value (digits ++ [b]) = value digits * 10 + digitValue b := by
  unfold value
  rw [List.foldl_append]
  rfl

/- A number does not become smaller when more digits follow. -/
theorem value_le_append
    (front back : Text) :
    value front ≤ value (front ++ back) := by
  induction back using List.reverseRecOn with
  | nil =>
      exact Nat.le_of_eq (by rw [List.append_nil])
  | append_singleton back b ih =>
      rw [← List.append_assoc, value_concat]
      omega

/- No number on the way to that of all digits is larger. -/
theorem value_step_le
    (front : Text)
    (b : UInt8)
    (back : Text) :
    value front * 10 + digitValue b ≤ value (front ++ b :: back) := by
  calc
    value front * 10 + digitValue b = value (front ++ [b]) :=
      (value_concat front b).symm
    _ ≤ value (front ++ [b] ++ back) := value_le_append _ back
    _ = value (front ++ b :: back) := by rw [List.append_assoc]; rfl

/- A number has as many digits as it is large. -/
theorem value_lt
    {digits : Text}
    (hDigits : ∀ b ∈ digits, Text.isDigit b = true) :
    value digits < 10 ^ digits.length := by
  induction digits using List.reverseRecOn with
  | nil =>
      decide
  | append_singleton digits b ih =>
      rw [List.forall_mem_append] at hDigits
      have hFront := ih hDigits.1
      have hLast :=
        (digitValue_lt b (hDigits.2 b List.mem_cons_self)).1
      rw [value_concat, List.length_append, List.length_singleton,
        pow_succ]
      omega

------------------------------------------------------------
-- Numerals
------------------------------------------------------------

theorem digit_spec :
    ∀ n < 10, Text.isDigit (digit n) = true ∧
      digitValue (digit n) = n ∧
      (digit n = '0'.toUInt8 → n = 0) := by
  decide +kernel

/- Reading on behind the digits of a number. -/
theorem foldl_digitsBefore
    (fuel n : Nat)
    (hFuel : n < fuel)
    (back : Text) :
    (digitsBefore fuel n back).foldl
        (fun n b => n * 10 + digitValue b) 0 =
      back.foldl (fun n b => n * 10 + digitValue b) n := by
  induction fuel generalizing n back with
  | zero =>
      omega
  | succ fuel ih =>
      rw [digitsBefore]
      by_cases hDigit : n < 10
      · rw [if_pos hDigit, List.foldl_cons,
          (digit_spec n hDigit).2.1, Nat.zero_mul, Nat.zero_add]
      · have hLast : n % 10 < 10 := Nat.mod_lt n (by omega)
        have hValue : n / 10 * 10 + n % 10 = n := by omega
        rw [if_neg hDigit, ih (n / 10) (by omega), List.foldl_cons,
          (digit_spec _ hLast).2.1, hValue]

theorem value_ofNat
    (n : Nat) :
    value (ofNat n) = n := by
  unfold value ofNat
  rw [foldl_digitsBefore (n + 1) n (by omega)]
  rfl

theorem isDigit_of_mem_digitsBefore
    (fuel n : Nat)
    (back : Text)
    (hBack : ∀ b ∈ back, Text.isDigit b = true) :
    ∀ b ∈ digitsBefore fuel n back, Text.isDigit b = true := by
  induction fuel generalizing n back with
  | zero =>
      exact hBack
  | succ fuel ih =>
      rw [digitsBefore]
      by_cases hDigit : n < 10
      · rw [if_pos hDigit, List.forall_mem_cons]
        exact ⟨(digit_spec n hDigit).1, hBack⟩
      · have hLast : n % 10 < 10 := Nat.mod_lt n (by omega)
        rw [if_neg hDigit]
        apply ih
        rw [List.forall_mem_cons]
        exact ⟨(digit_spec _ hLast).1, hBack⟩

/- A numeral has nothing but digits. -/
theorem isDigit_of_mem_ofNat
    (n : Nat) :
    ∀ b ∈ ofNat n, Text.isDigit b = true := by
  exact isDigit_of_mem_digitsBefore (n + 1) n [] (by simp)

theorem digitsBefore_eq_cons
    (fuel n : Nat)
    (hFuel : n < fuel)
    (back : Text) :
    ∃ b rest, digitsBefore fuel n back = b :: rest ∧
      (b = '0'.toUInt8 → n = 0 ∧ rest = back) := by
  induction fuel generalizing n back with
  | zero =>
      omega
  | succ fuel ih =>
      rw [digitsBefore]
      by_cases hDigit : n < 10
      · rw [if_pos hDigit]
        refine ⟨digit n, back, rfl, ?_⟩
        intro hZero
        exact ⟨(digit_spec n hDigit).2.2 hZero, rfl⟩
      · rw [if_neg hDigit]
        rcases ih (n / 10) (by omega) (digit (n % 10) :: back) with
          ⟨b, rest, hDigits, hZero⟩
        refine ⟨b, rest, hDigits, ?_⟩
        intro hHead
        have hFront := (hZero hHead).1
        omega

/- Only the numeral of zero begins with the digit zero. -/
theorem ofNat_eq_cons
    (n : Nat) :
    ∃ b rest, ofNat n = b :: rest ∧
      (b = '0'.toUInt8 → rest = []) := by
  rcases digitsBefore_eq_cons (n + 1) n (by omega) [] with
    ⟨b, rest, hDigits, hZero⟩
  exact ⟨b, rest, hDigits, fun hHead => (hZero hHead).2⟩

------------------------------------------------------------
-- Numerals Of Values
------------------------------------------------------------

/- What more fuel is given does not matter. -/
theorem digitsBefore_eq_append
    {fuel n : Nat}
    (hFuel : n < fuel)
    (back : Text) :
    digitsBefore fuel n back = ofNat n ++ back := by
  induction n using Nat.strongRecOn generalizing fuel back with
  | ind n ih =>
      obtain ⟨fuel, rfl⟩ : ∃ k, fuel = k + 1 := ⟨fuel - 1, by omega⟩
      unfold ofNat
      rw [digitsBefore, digitsBefore]
      by_cases hDigit : n < 10
      · rw [if_pos hDigit, if_pos hDigit]
        rfl
      · have hLess : n / 10 < n := by omega
        rw [if_neg hDigit, if_neg hDigit, ih _ hLess (by omega),
          ih _ hLess hLess, List.append_assoc]
        rfl

theorem ofNat_of_lt
    {n : Nat}
    (hDigit : n < 10) :
    ofNat n = [digit n] := by
  unfold ofNat
  rw [digitsBefore, if_pos hDigit]

/- The last digit of a numeral stands behind that of the tens. -/
theorem ofNat_of_le
    {n : Nat}
    (hMore : 10 ≤ n) :
    ofNat n = ofNat (n / 10) ++ [digit (n % 10)] := by
  rw [ofNat, digitsBefore, if_neg (by omega),
    digitsBefore_eq_append (by omega)]

theorem digit_digitValue :
    ∀ b : UInt8, Text.isDigit b = true →
      digit (digitValue b) = b ∧
        (digitValue b = 0 → b = '0'.toUInt8) := by
  apply Utf8.forall_byte
  decide +kernel

/- Digits behind one which is not zero denote no zero. -/
theorem value_pos
    {digits : Text}
    (hDigits : ∀ b ∈ digits, Text.isDigit b = true)
    (hSome : digits ≠ [])
    (hHead : digits.head? ≠ some '0'.toUInt8) :
    0 < value digits := by
  induction digits using List.reverseRecOn with
  | nil =>
      exact absurd rfl hSome
  | append_singleton digits b ih =>
      rw [List.forall_mem_append] at hDigits
      rw [value_concat]
      by_cases hNil : digits = []
      · subst hNil
        have hOther : b ≠ '0'.toUInt8 := by
          rintro rfl
          exact hHead rfl
        have hDigit := hDigits.2 b List.mem_cons_self
        have hPositive :=
          mt (digit_digitValue b hDigit).2 hOther
        omega
      · rw [List.head?_append_of_ne_nil _ hNil] at hHead
        have hFront := ih hDigits.1 hNil hHead
        omega

/- Digits without a zero in front are a numeral. -/
theorem ofNat_value
    {digits : Text}
    (hDigits : ∀ b ∈ digits, Text.isDigit b = true)
    (hSome : digits ≠ [])
    (hHead :
      digits = ascii "0" ∨ digits.head? ≠ some '0'.toUInt8) :
    ofNat (value digits) = digits := by
  induction digits using List.reverseRecOn with
  | nil =>
      exact absurd rfl hSome
  | append_singleton digits b ih =>
      rw [List.forall_mem_append] at hDigits
      have hDigit := hDigits.2 b List.mem_cons_self
      have hBound := (digitValue_lt b hDigit).1
      have hByte := (digit_digitValue b hDigit).1
      rw [value_concat]
      by_cases hNil : digits = []
      · subst hNil
        rw [show value [] = 0 from rfl, Nat.zero_mul, Nat.zero_add,
          ofNat_of_lt hBound, hByte]
        rfl
      · have hFront : digits.head? ≠ some '0'.toUInt8 := by
          rcases hHead with hZero | hHead
          · have hLength := congrArg List.length hZero
            rw [List.length_append] at hLength
            exact absurd
              (List.eq_nil_of_length_eq_zero
                (Nat.succ.inj hLength)) hNil
          · rwa [List.head?_append_of_ne_nil _ hNil] at hHead
        have hPositive := value_pos hDigits.1 hNil hFront
        have hTens :
            (value digits * 10 + digitValue b) / 10 =
              value digits := by
          omega
        have hLast :
            (value digits * 10 + digitValue b) % 10 =
              digitValue b := by
          omega
        rw [ofNat_of_le (by omega), hTens, hLast, hByte,
          ih hDigits.1 hNil (Or.inr hFront)]

/- A numeral is as long as its number is large. -/
theorem length_ofNat_le
    {n k : Nat}
    (hSome : 0 < k)
    (hBound : n < 10 ^ k) :
    (ofNat n).length ≤ k := by
  induction k generalizing n with
  | zero =>
      omega
  | succ k ih =>
      by_cases hDigit : n < 10
      · rw [ofNat_of_lt hDigit, List.length_singleton]
        omega
      · have hTens : n / 10 < 10 ^ k := by
          rw [pow_succ] at hBound
          omega
        have hMore : 0 < k := by
          rcases Nat.eq_zero_or_pos k with rfl | hMore
          · omega
          · exact hMore
        rw [ofNat_of_le (by omega), List.length_append,
          List.length_singleton]
        exact Nat.succ_le_succ (ih hMore hTens)

end Decimal

end ContractLinker
