import ContractLinker.Text.Utf8

/-
  Reading what was written. A valid text is the encoding of
  its code points, and reading finds each of them again.

  Key definitions include:
    * `Utf8.IsScalar`
    * `Utf8.IsEncoding`

  Main statements:
    * `Utf8.codePoints_flatMap_encode`
    * `Utf8.isEncoding_of_isValid`
-/

namespace ContractLinker

namespace Utf8

/- A code point which is no surrogate. -/
def IsScalar (n : Nat) : Prop :=
  n < 0xd800 ∨ (0xe000 ≤ n ∧ n < 0x110000)

/- A text which is written code point by code point. -/
def IsEncoding (s : Text) : Prop :=
  ∃ points : List Nat, (∀ n ∈ points, IsScalar n) ∧
    s = points.flatMap encode

------------------------------------------------------------
-- Bytes
------------------------------------------------------------

theorem forall_byte
    {motive : UInt8 → Prop}
    (hAll : ∀ n ∈ List.range 256, motive (UInt8.ofNat n))
    (b : UInt8) :
    motive b := by
  have hByte := hAll b.toNat (List.mem_range.mpr b.toNat_lt)
  rw [UInt8.ofNat_toNat] at hByte
  exact hByte

theorem unit_eq
    (marking : UInt8)
    (n shift : Nat) :
    unit marking n shift =
      marking ||| ((n >>> shift) % 64).toUInt8 := by
  unfold unit
  have hMask : (n >>> shift) &&& 0x3f = (n >>> shift) % 64 :=
    Nat.and_two_pow_sub_one_eq_mod (n >>> shift) 6
  rw [hMask]

/- The marking of a byte leaves its bits alone and tells its place. -/
theorem bits_marked :
    (∀ m : Nat, m < 64 → bits (0x80 ||| m.toUInt8) 0x3f = m) ∧
      (∀ m : Nat, m < 32 →
        bits (0xc0 ||| m.toUInt8) 0x1f = m ∧
          (0xc0 : UInt8) ≤ 0xc0 ||| m.toUInt8 ∧
          0xc0 ||| m.toUInt8 < 0xe0) ∧
      (∀ m : Nat, m < 16 →
        bits (0xe0 ||| m.toUInt8) 0x0f = m ∧
          (0xe0 : UInt8) ≤ 0xe0 ||| m.toUInt8 ∧
          0xe0 ||| m.toUInt8 < 0xf0) ∧
      ∀ m : Nat, m < 8 →
        bits (0xf0 ||| m.toUInt8) 0x07 = m ∧
          (0xf0 : UInt8) ≤ 0xf0 ||| m.toUInt8 ∧
          0xf0 ||| m.toUInt8 < 0xf8 := by
  decide +kernel

/- A byte is made of a marking and of its bits in a mask. -/
def Marked (b marking mask : UInt8) (bound : Nat) : Prop :=
  bits b mask < bound ∧ marking ||| (bits b mask).toUInt8 = b

instance (b marking mask : UInt8) (bound : Nat) :
    Decidable (Marked b marking mask bound) :=
  inferInstanceAs (Decidable (_ ∧ _))

/- The range of a byte tells its marking and bounds its bits. -/
theorem marked_of_range :
    ∀ b : UInt8,
      (isTail b = true →
        Marked b 0x80 0x3f 64 ∧ (0xa0 ≤ b ↔ 32 ≤ bits b 0x3f) ∧
          (0x90 ≤ b ↔ 16 ≤ bits b 0x3f)) ∧
        (0xc2 ≤ b → b < 0xe0 →
          2 ≤ bits b 0x1f ∧ Marked b 0xc0 0x1f 32) ∧
        (0xe0 ≤ b → b < 0xf0 →
          Marked b 0xe0 0x0f 16 ∧ (b = 0xe0 ↔ bits b 0x0f = 0) ∧
            (b = 0xed ↔ bits b 0x0f = 13)) ∧
        (0xf0 ≤ b → b < 0xf5 →
          Marked b 0xf0 0x07 5 ∧ (b = 0xf0 ↔ bits b 0x07 = 0) ∧
            (b = 0xf4 ↔ bits b 0x07 = 4)) := by
  apply forall_byte
  decide +kernel

------------------------------------------------------------
-- Reading Of Encoded Code Points
------------------------------------------------------------

theorem not_lt_of_le
    {a b c : UInt8}
    (hLow : b ≤ a)
    (hBound : c ≤ b) :
    ¬ a < c := by
  rw [UInt8.not_lt]
  exact UInt8.le_trans hBound hLow

theorem read_single
    {a : UInt8}
    (hHigh : a < 0x80)
    (s : Text) :
    read a s = (a.toNat, 0) := by
  unfold read
  rw [if_pos hHigh]

theorem read_pair
    {a : UInt8}
    (hLow : 0xc0 ≤ a)
    (hHigh : a < 0xe0)
    (b : UInt8)
    (s : Text) :
    read a (b :: s) = (pair a b, 1) := by
  unfold read
  rw [if_neg (not_lt_of_le hLow (by decide)),
    if_neg (not_lt_of_le hLow (by decide)), if_pos hHigh]

theorem read_triple
    {a : UInt8}
    (hLow : 0xe0 ≤ a)
    (hHigh : a < 0xf0)
    (b c : UInt8)
    (s : Text) :
    read a (b :: c :: s) = (triple a b c, 2) := by
  unfold read
  rw [if_neg (not_lt_of_le hLow (by decide)),
    if_neg (not_lt_of_le hLow (by decide)),
    if_neg (not_lt_of_le hLow (by decide)), if_pos hHigh]

theorem read_quadruple
    {a : UInt8}
    (hLow : 0xf0 ≤ a)
    (hHigh : a < 0xf8)
    (b c d : UInt8)
    (s : Text) :
    read a (b :: c :: d :: s) = (quadruple a b c d, 3) := by
  unfold read
  rw [if_neg (not_lt_of_le hLow (by decide)),
    if_neg (not_lt_of_le hLow (by decide)),
    if_neg (not_lt_of_le hLow (by decide)),
    if_neg (not_lt_of_le hLow (by decide)), if_pos hHigh]

theorem codePoints_encode_single
    {n : Nat}
    (hHigh : n < 0x80)
    (s : Text) :
    codePoints (encode n ++ s) = n :: codePoints s := by
  have hByte : n.toUInt8.toNat = n :=
    Nat.mod_eq_of_lt (by omega)
  have hLess : n.toUInt8 < 0x80 := by
    rw [UInt8.lt_iff_toNat_lt, hByte]
    exact hHigh
  unfold encode
  rw [if_pos hHigh, List.singleton_append, codePoints,
    codePointsAfter, read_single hLess, hByte]
  rfl

theorem codePoints_encode_pair
    {n : Nat}
    (hLow : 0x80 ≤ n)
    (hHigh : n < 0x800)
    (s : Text) :
    codePoints (encode n ++ s) = n :: codePoints s := by
  have hLead : n / 2 ^ 6 % 64 < 32 := by omega
  have hLast : n / 2 ^ 0 % 64 < 64 := by omega
  have hRange := bits_marked.2.1 _ hLead
  have hValue : n / 2 ^ 6 % 64 * 0x40 + n / 2 ^ 0 % 64 = n := by
    omega
  unfold encode
  rw [if_neg (by omega), if_pos hHigh, unit_eq, unit_eq,
    Nat.shiftRight_eq_div_pow, Nat.shiftRight_eq_div_pow,
    List.cons_append, List.singleton_append, codePoints,
    codePointsAfter, read_pair hRange.2.1 hRange.2.2, pair,
    hRange.1, bits_marked.1 _ hLast, hValue]
  rfl

theorem codePoints_encode_triple
    {n : Nat}
    (hLow : 0x800 ≤ n)
    (hHigh : n < 0x10000)
    (s : Text) :
    codePoints (encode n ++ s) = n :: codePoints s := by
  have hLead : n / 2 ^ 12 % 64 < 16 := by omega
  have hNext : n / 2 ^ 6 % 64 < 64 := by omega
  have hLast : n / 2 ^ 0 % 64 < 64 := by omega
  have hRange := bits_marked.2.2.1 _ hLead
  have hValue :
      n / 2 ^ 12 % 64 * 0x1000 + n / 2 ^ 6 % 64 * 0x40 +
        n / 2 ^ 0 % 64 = n := by
    omega
  unfold encode
  rw [if_neg (by omega), if_neg (by omega), if_pos hHigh, unit_eq,
    unit_eq, unit_eq, Nat.shiftRight_eq_div_pow,
    Nat.shiftRight_eq_div_pow, Nat.shiftRight_eq_div_pow,
    List.cons_append, List.cons_append, List.singleton_append,
    codePoints, codePointsAfter, read_triple hRange.2.1 hRange.2.2,
    triple, hRange.1, bits_marked.1 _ hNext,
    bits_marked.1 _ hLast, hValue]
  rfl

theorem codePoints_encode_quadruple
    {n : Nat}
    (hLow : 0x10000 ≤ n)
    (hHigh : n < 0x200000)
    (s : Text) :
    codePoints (encode n ++ s) = n :: codePoints s := by
  have hLead : n / 2 ^ 18 % 64 < 8 := by omega
  have hSecond : n / 2 ^ 12 % 64 < 64 := by omega
  have hNext : n / 2 ^ 6 % 64 < 64 := by omega
  have hLast : n / 2 ^ 0 % 64 < 64 := by omega
  have hRange := bits_marked.2.2.2 _ hLead
  have hValue :
      n / 2 ^ 18 % 64 * 0x40000 + n / 2 ^ 12 % 64 * 0x1000 +
        n / 2 ^ 6 % 64 * 0x40 + n / 2 ^ 0 % 64 = n := by
    omega
  unfold encode
  rw [if_neg (by omega), if_neg (by omega), if_neg (by omega),
    unit_eq, unit_eq, unit_eq, unit_eq, Nat.shiftRight_eq_div_pow,
    Nat.shiftRight_eq_div_pow, Nat.shiftRight_eq_div_pow,
    Nat.shiftRight_eq_div_pow, List.cons_append, List.cons_append,
    List.cons_append, List.singleton_append, codePoints,
    codePointsAfter, read_quadruple hRange.2.1 hRange.2.2, quadruple,
    hRange.1, bits_marked.1 _ hSecond, bits_marked.1 _ hNext,
    bits_marked.1 _ hLast, hValue]
  rfl

/- A code point is read from the bytes that encode it. -/
theorem codePoints_encode_append
    {n : Nat}
    (hBound : n < 0x200000)
    (s : Text) :
    codePoints (encode n ++ s) = n :: codePoints s := by
  by_cases hSingle : n < 0x80
  · exact codePoints_encode_single hSingle s
  · by_cases hPair : n < 0x800
    · exact codePoints_encode_pair (by omega) hPair s
    · by_cases hTriple : n < 0x10000
      · exact codePoints_encode_triple (by omega) hTriple s
      · exact codePoints_encode_quadruple (by omega) hBound s

/- The code points of an encoding are those it was made of. -/
theorem codePoints_flatMap_encode
    {points : List Nat}
    (hScalars : ∀ n ∈ points, IsScalar n) :
    codePoints (points.flatMap encode) = points := by
  induction points with
  | nil =>
      rfl
  | cons n points ih =>
      rw [List.forall_mem_cons] at hScalars
      have hBound : n < 0x200000 := by
        rcases hScalars.1 with hLow | hHigh
        · omega
        · omega
      rw [List.flatMap_cons, codePoints_encode_append hBound,
        ih hScalars.2]

------------------------------------------------------------
-- Valid Texts
------------------------------------------------------------

/- A digit to the base of 64 is shifted away. -/
theorem shift_digit
    {high low : Nat}
    (hLow : low < 64)
    (k : Nat) :
    (high * 0x40 + low) >>> (6 + k) = high >>> k := by
  have hHigh : (high * 0x40 + low) / 2 ^ 6 = high := by omega
  rw [Nat.shiftRight_add, Nat.shiftRight_eq_div_pow _ 6, hHigh]

theorem last_digit
    {high low : Nat}
    (hLow : low < 64) :
    (high * 0x40 + low) >>> 0 % 64 = low := by
  rw [Nat.shiftRight_zero]
  omega

theorem first_digit
    {high : Nat}
    (hHigh : high < 64) :
    high >>> 0 % 64 = high := by
  exact Nat.mod_eq_of_lt hHigh

/- The digits of a code point which three bytes make up. -/
theorem digits_triple
    {x y z : Nat}
    (hX : x < 64)
    (hY : y < 64)
    (hZ : z < 64) :
    (x * 0x1000 + y * 0x40 + z) >>> 12 % 64 = x ∧
      (x * 0x1000 + y * 0x40 + z) >>> 6 % 64 = y ∧
      (x * 0x1000 + y * 0x40 + z) >>> 0 % 64 = z := by
  have hNested :
      x * 0x1000 + y * 0x40 + z = (x * 0x40 + y) * 0x40 + z := by
    omega
  rw [hNested]
  refine ⟨?_, ?_, last_digit hZ⟩
  · rw [shift_digit hZ 6, shift_digit hY 0, first_digit hX]
  · rw [shift_digit hZ 0, last_digit hY]

theorem digits_quadruple
    {x y z w : Nat}
    (hX : x < 64)
    (hY : y < 64)
    (hZ : z < 64)
    (hW : w < 64) :
    (x * 0x40000 + y * 0x1000 + z * 0x40 + w) >>> 18 % 64 = x ∧
      (x * 0x40000 + y * 0x1000 + z * 0x40 + w) >>> 12 % 64 = y ∧
      (x * 0x40000 + y * 0x1000 + z * 0x40 + w) >>> 6 % 64 = z ∧
      (x * 0x40000 + y * 0x1000 + z * 0x40 + w) >>> 0 % 64 = w := by
  have hNested :
      x * 0x40000 + y * 0x1000 + z * 0x40 + w =
        (x * 0x1000 + y * 0x40 + z) * 0x40 + w := by
    omega
  rcases digits_triple hX hY hZ with ⟨hFirst, hSecond, hThird⟩
  rw [hNested]
  refine ⟨?_, ?_, ?_, last_digit hW⟩
  · rw [shift_digit hW 12, hFirst]
  · rw [shift_digit hW 6, hSecond]
  · rw [shift_digit hW 0, hThird]

theorem encode_pair
    {a b : UInt8}
    (hPair : isPair a b = true) :
    IsScalar (pair a b) ∧ encode (pair a b) = [a, b] := by
  simp only [isPair, Bool.and_eq_true, decide_eq_true_iff] at hPair
  rcases hPair with ⟨⟨hLow, hHigh⟩, hTail⟩
  rcases (marked_of_range a).2.1 hLow hHigh with
    ⟨hLeast, hLead, hFirst⟩
  rcases (marked_of_range b).1 hTail with
    ⟨⟨hBits, hSecond⟩, -, -⟩
  have hShifted :
      (bits a 0x1f * 0x40 + bits b 0x3f) >>> 6 % 64 =
        bits a 0x1f := by
    rw [shift_digit hBits 0, first_digit (by omega)]
  unfold IsScalar encode pair
  refine ⟨by omega, ?_⟩
  rw [if_neg (by omega), if_pos (by omega), unit_eq, unit_eq,
    hShifted, last_digit hBits, hFirst, hSecond]

/- What the bounds on the first two bytes exclude. -/
theorem range_triple
    {x y z : Nat}
    (hX : x < 16)
    (hY : y < 64)
    (hZ : z < 64)
    (hLong : ¬ x = 0 ∨ 32 ≤ y)
    (hSurrogate : ¬ x = 13 ∨ ¬ 32 ≤ y) :
    0x800 ≤ x * 0x1000 + y * 0x40 + z ∧
      x * 0x1000 + y * 0x40 + z < 0x10000 ∧
      IsScalar (x * 0x1000 + y * 0x40 + z) := by
  unfold IsScalar
  omega

theorem encode_triple
    {a b c : UInt8}
    (hTriple : isTriple a b c = true) :
    IsScalar (triple a b c) ∧
      encode (triple a b c) = [a, b, c] := by
  simp only [isTriple, Bool.and_eq_true, Bool.or_eq_true, bne_iff_ne,
    decide_eq_true_iff] at hTriple
  rcases hTriple with
    ⟨⟨⟨⟨⟨hLow, hHigh⟩, hTailB⟩, hTailC⟩, hLong⟩, hSurrogate⟩
  rcases (marked_of_range a).2.2.1 hLow hHigh with
    ⟨⟨hLead, hFirst⟩, hZero, hHalf⟩
  rcases (marked_of_range b).1 hTailB with
    ⟨⟨hBitsB, hSecond⟩, hLower, -⟩
  rcases (marked_of_range c).1 hTailC with
    ⟨⟨hBitsC, hThird⟩, -, -⟩
  rw [hLower, Ne, hZero] at hLong
  rw [← UInt8.not_le, hLower, Ne, hHalf] at hSurrogate
  rcases range_triple hLead hBitsB hBitsC hLong hSurrogate with
    ⟨hLeast, hMost, hScalar⟩
  rcases digits_triple (Nat.lt_trans hLead (by decide)) hBitsB hBitsC
    with ⟨hHighBits, hMiddle, hLowBits⟩
  have hShort := Nat.le_trans (by decide : 0x80 ≤ 0x800) hLeast
  refine ⟨hScalar, ?_⟩
  unfold encode triple
  rw [if_neg (Nat.not_lt.mpr hShort), if_neg (Nat.not_lt.mpr hLeast),
    if_pos hMost, unit_eq, unit_eq, unit_eq, hHighBits, hMiddle,
    hLowBits, hFirst, hSecond, hThird]

theorem range_quadruple
    {x y z w : Nat}
    (hX : x < 5)
    (hY : y < 64)
    (hZ : z < 64)
    (hW : w < 64)
    (hLong : ¬ x = 0 ∨ 16 ≤ y)
    (hLast : ¬ x = 4 ∨ ¬ 16 ≤ y) :
    0x10000 ≤ x * 0x40000 + y * 0x1000 + z * 0x40 + w ∧
      IsScalar (x * 0x40000 + y * 0x1000 + z * 0x40 + w) := by
  unfold IsScalar
  omega

theorem encode_quadruple
    {a b c d : UInt8}
    (hQuadruple : isQuadruple a b c d = true) :
    IsScalar (quadruple a b c d) ∧
      encode (quadruple a b c d) = [a, b, c, d] := by
  simp only [isQuadruple, Bool.and_eq_true, Bool.or_eq_true,
    bne_iff_ne, decide_eq_true_iff] at hQuadruple
  rcases hQuadruple with
    ⟨⟨⟨⟨⟨⟨hLow, hHigh⟩, hTailB⟩, hTailC⟩, hTailD⟩, hLong⟩, hLast⟩
  rcases (marked_of_range a).2.2.2 hLow hHigh with
    ⟨⟨hLead, hFirst⟩, hZero, hFour⟩
  rcases (marked_of_range b).1 hTailB with
    ⟨⟨hBitsB, hSecond⟩, -, hLower⟩
  rcases (marked_of_range c).1 hTailC with
    ⟨⟨hBitsC, hThird⟩, -, -⟩
  rcases (marked_of_range d).1 hTailD with
    ⟨⟨hBitsD, hFourth⟩, -, -⟩
  rw [hLower, Ne, hZero] at hLong
  rw [← UInt8.not_le, hLower, Ne, hFour] at hLast
  rcases range_quadruple hLead hBitsB hBitsC hBitsD hLong hLast with
    ⟨hLeast, hScalar⟩
  rcases digits_quadruple (Nat.lt_trans hLead (by decide)) hBitsB
    hBitsC hBitsD with ⟨hHighBits, hUpper, hMiddle, hLowBits⟩
  have hShort := Nat.le_trans (by decide : 0x80 ≤ 0x10000) hLeast
  have hMore := Nat.le_trans (by decide : 0x800 ≤ 0x10000) hLeast
  refine ⟨hScalar, ?_⟩
  unfold encode quadruple
  rw [if_neg (Nat.not_lt.mpr hShort), if_neg (Nat.not_lt.mpr hMore),
    if_neg (Nat.not_lt.mpr hLeast), unit_eq, unit_eq, unit_eq,
    unit_eq, hHighBits, hUpper, hMiddle, hLowBits, hFirst, hSecond,
    hThird, hFourth]

theorem encode_single
    {a : UInt8}
    (hSingle : a < 0x80) :
    IsScalar a.toNat ∧ encode a.toNat = [a] := by
  have hBound : a.toNat < 0x80 := UInt8.lt_iff_toNat_lt.mp hSingle
  unfold IsScalar encode
  refine ⟨by omega, ?_⟩
  rw [if_pos hBound]
  simp

theorem IsEncoding.cons
    {n : Nat}
    {front back : Text}
    (hFront : IsScalar n ∧ encode n = front)
    (hBack : IsEncoding back) :
    IsEncoding (front ++ back) := by
  rcases hFront with ⟨hScalar, rfl⟩
  rcases hBack with ⟨points, hScalars, rfl⟩
  refine ⟨n :: points, ?_, by rw [List.flatMap_cons]⟩
  rw [List.forall_mem_cons]
  exact ⟨hScalar, hScalars⟩

/- A valid text is the encoding of code points. -/
theorem isEncoding_of_isValid
    {s : Text}
    (hValid : isValid s = true) :
    IsEncoding s := by
  fun_induction isValid s with
  | case1 => exact ⟨[], by simp, rfl⟩
  | case2 a s hSingle ih =>
      exact IsEncoding.cons (encode_single hSingle) (ih hValid)
  | case3 a hSingle b t hPair ih =>
      exact IsEncoding.cons (encode_pair hPair) (ih hValid)
  | case4 a hSingle b hPair c u hTriple ih =>
      exact IsEncoding.cons (encode_triple hTriple) (ih hValid)
  | case5 a hSingle b hPair c hTriple d v ih =>
      rw [Bool.and_eq_true] at hValid
      exact IsEncoding.cons (encode_quadruple hValid.1)
        (ih hValid.2)
  | case6 => cases hValid
  | case7 => cases hValid
  | case8 => cases hValid

end Utf8

end ContractLinker
