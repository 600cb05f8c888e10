import ContractLinker.Keccak.Sponge
import ContractLinker.Proofs.Keccak.Square

/-
  Keccak-256 as it is defined, on whole blocks: a message is
  padded until its length is a multiple of the rate, each
  block is added to the lanes of the square before they are
  permuted, and the digest is read off the first lanes. The
  sponge, which takes a message byte by byte and never builds
  the padding, computes the same digests.

  Key definitions include:
    * `Keccak.padding`
    * `Keccak.blocks`
    * `Keccak.lane`
    * `Keccak.Square.absorb`
    * `Keccak.Square.squeeze`
    * `Keccak.blockDigest`

  Main statements:
    * `Keccak.lane_concat`
    * `Keccak.foldl_absorb_blocks`
    * `Keccak.close_eq`
    * `Keccak.digest_eq_blockDigest`
-/

------------------------------------------------------------
-- Padded Messages
------------------------------------------------------------

namespace ContractLinker

namespace Keccak

/-
  What fills the last block of a message: the marks of both
  ends, which are one byte if there is room for one only, and
  zeros between them.
-/
def padding (length : Nat) : List UInt8 :=
  let missing := rate - length % rate
  if missing = 1 then
    [0x81]
  else
    0x01 :: (List.replicate (missing - 2) 0x00 ++ [0x80])

/- The blocks of a message which has been padded. -/
def blocks (bytes : List UInt8) : List (List UInt8) :=
  (List.range (bytes.length / rate)).map fun i =>
    (bytes.drop (rate * i)).take rate

/- A lane of a block, low byte first. The lanes behind it are zero. -/
def lane (block : List UInt8) (i : Nat) : UInt64 :=
  UInt64.ofNat
    (Nat.ofDigits 256 (((block.drop (8 * i)).take 8).map UInt8.toNat))

namespace Square

/- Add a block to the lanes, and permute them. -/
def absorb (A : Square) (block : List UInt8) : Square :=
  permute fun x y => A x y ^^^ lane block (x.val + 5 * y.val)

/- The first bytes of the lanes, each lane low byte first. -/
def squeeze (A : Square) : List UInt8 :=
  List.ofFn fun i : Fin digestSize =>
    have hColumn : i.val / 8 < 5 :=
      Nat.div_lt_of_lt_mul (Nat.lt_trans i.isLt (by decide))
    UInt8.ofNat ((A ⟨i.val / 8, hColumn⟩ 0).toNat / 256 ^ (i.val % 8))

end Square

/- The digest of a message by its blocks. -/
def blockDigest (message : List UInt8) : List UInt8 :=
  Square.squeeze
    ((blocks (message ++ padding message.length)).foldl
      Square.absorb fun _ _ => 0)

/- The padding fills the last block, or is a whole one. -/
theorem length_padding
    (length : Nat) :
    (padding length).length = rate - length % rate := by
  have hLess : length % rate < rate :=
    Nat.mod_lt length (by decide)
  unfold padding
  dsimp only
  split
  · next hOne =>
      rw [hOne]
      rfl
  · next hMore =>
      rw [List.length_cons, List.length_append, List.length_replicate,
        List.length_singleton]
      omega

theorem rate_dvd_length_append_padding
    (message : List UInt8) :
    rate ∣ (message ++ padding message.length).length := by
  rw [List.length_append, length_padding]
  unfold rate
  omega

theorem blocks_append
    {block : List UInt8}
    (hLength : block.length = rate)
    (bytes : List UInt8) :
    blocks (block ++ bytes) = block :: blocks bytes := by
  have hCount :
      (block ++ bytes).length / rate = bytes.length / rate + 1 := by
    rw [List.length_append, hLength,
      Nat.add_div_left _ (by decide)]
  unfold blocks
  rw [hCount, List.range_succ_eq_map, List.map_cons, List.map_map]
  congr 1
  · rw [Nat.mul_zero, List.drop_zero, ← hLength, List.take_left]
  · apply List.map_congr_left
    intro i _
    change ((block ++ bytes).drop (rate * (i + 1))).take rate = _
    rw [Nat.mul_succ, Nat.add_comm, ← hLength,
      List.drop_length_add_append]

------------------------------------------------------------
-- Bytes In Lanes
------------------------------------------------------------

/- Bits above those of a number can be added or exclusively or-ed. -/
theorem add_two_pow_mul_eq_xor
    {a places : Nat}
    (hLow : a < 2 ^ places)
    (b : Nat) :
    a + 2 ^ places * b = a ^^^ (b <<< places) := by
  apply Nat.eq_of_testBit_eq
  intro j
  rw [Nat.add_comm, Nat.testBit_two_pow_mul_add b hLow,
    Nat.testBit_xor, Nat.testBit_shiftLeft]
  by_cases hBit : j < places
  · rw [if_pos hBit, decide_eq_false (Nat.not_le.mpr hBit),
      Bool.false_and, Bool.xor_false]
  · have hHigh : a.testBit j = false :=
      Nat.testBit_lt_two_pow
        (Nat.lt_of_lt_of_le hLow
          (Nat.pow_le_pow_right (by decide) (Nat.not_lt.mp hBit)))
    rw [if_neg hBit, decide_eq_true (Nat.not_lt.mp hBit),
      Bool.true_and, hHigh, Bool.false_xor]

theorem ofDigits_lt
    (bytes : List UInt8) :
    Nat.ofDigits 256 (bytes.map UInt8.toNat) <
      2 ^ (8 * bytes.length) := by
  have hBytes : ∀ digit ∈ bytes.map UInt8.toNat, digit < 256 := by
    intro digit hMember
    rcases List.mem_map.mp hMember with ⟨b, -, rfl⟩
    exact b.toNat_lt
  have hLess := Nat.ofDigits_lt_base_pow_length (by decide) hBytes
  rw [List.length_map] at hLess
  rw [pow_mul]
  exact hLess

/- One more byte of a lane stands above those it has. -/
theorem ofNat_ofDigits_concat
    {bytes : List UInt8}
    (hLength : bytes.length < 8)
    (b : UInt8) :
    UInt64.ofNat
        (Nat.ofDigits 256 ((bytes ++ [b]).map UInt8.toNat)) =
      UInt64.ofNat (Nat.ofDigits 256 (bytes.map UInt8.toNat)) ^^^
        (b.toUInt64 <<< (8 * bytes.length).toUInt64) := by
  have hSum :
      Nat.ofDigits 256 ((bytes ++ [b]).map UInt8.toNat) =
        Nat.ofDigits 256 (bytes.map UInt8.toNat) ^^^
          (b.toNat <<< (8 * bytes.length)) := by
    rw [← add_two_pow_mul_eq_xor (ofDigits_lt bytes), List.map_append,
      Nat.ofDigits_append, List.length_map, List.map_singleton,
      Nat.ofDigits_singleton, pow_mul]
    rfl
  have hByte : UInt64.ofNat b.toNat = b.toUInt64 := by
    simp
  rw [hSum, UInt64.ofNat_xor, UInt64.ofNat_shiftLeft _ _ (by omega),
    hByte]

/- A byte behind a block changes the lane in which it stands. -/
theorem lane_concat
    (block : List UInt8)
    (b : UInt8)
    (i : Nat) :
    lane (block ++ [b]) i =
      if i = block.length / 8 then
        lane block i ^^^
          (b.toUInt64 <<< (8 * (block.length % 8)).toUInt64)
      else
        lane block i := by
  unfold lane
  split
  · next hHere =>
      have hRest : (block.drop (8 * i)).length = block.length % 8 := by
        rw [List.length_drop]
        omega
      have hLength : (block.drop (8 * i)).length < 8 := by
        omega
      rw [List.drop_append_of_le_length (by omega),
        List.take_of_length_le (by simp; omega),
        List.take_of_length_le hLength.le,
        ofNat_ofDigits_concat hLength, hRest]
  · next hOther =>
      by_cases hBefore : 8 * i + 8 ≤ block.length
      · rw [List.drop_append_of_le_length (by omega),
          List.take_append_of_le_length (by
            rw [List.length_drop]
            omega)]
      · rw [List.drop_eq_nil_of_le (by simp; omega),
          List.drop_eq_nil_of_le (by omega)]

------------------------------------------------------------
-- Absorbing Blocks
------------------------------------------------------------

/- The lanes with a block added to them. -/
def addBlock (s : Lanes) (block : List UInt8) : Lanes :=
  Vector.ofFn fun i : Fin 25 => s.get i ^^^ lane block i.val

theorem addBlock_nil
    (s : Lanes) :
    addBlock s [] = s := by
  apply Vector.ext
  intro i hIndex
  have hLane : lane [] i = 0 := by
    unfold lane
    rw [List.drop_nil, List.take_nil]
    rfl
  unfold addBlock
  rw [Vector.getElem_ofFn, hLane, UInt64.xor_zero]
  rfl

theorem addBlock_concat
    (s : Lanes)
    {block : List UInt8}
    (hLength : block.length < 200)
    (b : UInt8) :
    addBlock s (block ++ [b]) =
      addByte (addBlock s block) block.length hLength b := by
  apply Vector.ext
  intro i hIndex
  unfold addByte
  rw [Vector.getElem_set]
  unfold addBlock
  rw [Vector.getElem_ofFn, Vector.getElem_ofFn, Vector.getElem_ofFn,
    lane_concat]
  by_cases hHere : i = block.length / 8
  · subst hHere
    rw [if_pos rfl, if_pos rfl]
    exact (UInt64.xor_assoc _ _ _).symm
  · rw [if_neg hHere, if_neg (Ne.symm hHere)]

namespace Sponge

/- A byte which does not fill the block. -/
theorem absorb_of_lt
    {s : Sponge}
    (hRoom : s.filled.val + 1 < rate)
    (b : UInt8) :
    s.absorb b =
      ⟨addByte s.lanes s.filled.val s.filled_lt b,
        ⟨s.filled.val + 1, hRoom⟩⟩ := by
  exact dif_pos hRoom

theorem absorb_of_full
    {s : Sponge}
    (hFull : s.filled.val = rate - 1)
    (b : UInt8) :
    s.absorb b =
      ⟨permute (addByte s.lanes s.filled.val s.filled_lt b), 0⟩ := by
  have hLast : ¬ s.filled.val + 1 < rate := by
    rw [hFull]
    decide
  exact dif_neg hLast

/- Less than a block is added to the lanes, which are not yet permuted. -/
theorem foldl_absorb_of_lt
    (s : Lanes)
    {bytes : List UInt8}
    (hLength : bytes.length < rate) :
    bytes.foldl absorb ⟨s, 0⟩ =
      ⟨addBlock s bytes, ⟨bytes.length, hLength⟩⟩ := by
  induction bytes using List.reverseRecOn with
  | nil =>
      rw [addBlock_nil]
      rfl
  | append_singleton front b ih =>
      have hFront : front.length + 1 < rate := by
        rw [List.length_append, List.length_singleton] at hLength
        exact hLength
      rw [List.foldl_append, ih (Nat.lt_of_succ_lt hFront),
        List.foldl_cons, List.foldl_nil, absorb_of_lt hFront]
      simp only [List.length_append, List.length_singleton,
        addBlock_concat s (Nat.lt_trans (Nat.lt_of_succ_lt hFront)
          (by decide : rate < 200)) b]

/- A whole block is added to the lanes, which are permuted then. -/
theorem foldl_absorb_block
    (s : Lanes)
    {block : List UInt8}
    (hLength : block.length = rate) :
    block.foldl absorb ⟨s, 0⟩ = ⟨permute (addBlock s block), 0⟩ := by
  rcases List.eq_nil_or_concat block with rfl | ⟨front, b, rfl⟩
  · cases hLength
  · rw [List.concat_eq_append, List.length_append,
      List.length_singleton] at hLength
    have hFront : front.length < rate := by
      omega
    have hFull : front.length = rate - 1 := by
      omega
    rw [List.concat_eq_append, List.foldl_append,
      foldl_absorb_of_lt s hFront, List.foldl_cons, List.foldl_nil,
      absorb_of_full hFull, addBlock_concat s
        (Nat.lt_trans hFront (by decide : rate < 200)) b]

/- The induction is on the number of blocks. -/
theorem foldl_absorb_blocks
    (s : Lanes)
    {bytes : List UInt8}
    (hLength : rate ∣ bytes.length) :
    bytes.foldl absorb ⟨s, 0⟩ =
      ⟨(blocks bytes).foldl
          (fun s block => permute (addBlock s block)) s, 0⟩ := by
  rcases hLength with ⟨count, hLength⟩
  induction count generalizing s bytes with
  | zero =>
      rw [Nat.mul_zero, List.length_eq_zero_iff] at hLength
      subst hLength
      rfl
  | succ count ih =>
      have hFront : (bytes.take rate).length = rate := by
        rw [List.length_take, hLength, Nat.mul_succ]
        exact Nat.min_eq_left (Nat.le_add_left rate _)
      have hRest : (bytes.drop rate).length = rate * count := by
        rw [List.length_drop, hLength, Nat.mul_succ,
          Nat.add_sub_cancel]
      rw [← List.take_append_drop rate bytes, List.foldl_append,
        foldl_absorb_block s hFront, ih _ hRest,
        blocks_append hFront, List.foldl_cons]

------------------------------------------------------------
-- Closing
------------------------------------------------------------

theorem filled_absorb
    (s : Sponge)
    (b : UInt8) :
    (s.absorb b).filled.val = (s.filled.val + 1) % rate := by
  by_cases hRoom : s.filled.val + 1 < rate
  · rw [absorb_of_lt hRoom, Nat.mod_eq_of_lt hRoom]
  · have hFull : s.filled.val = rate - 1 := by
      have hLess := s.filled.isLt
      omega
    have hNext : (s.filled.val + 1) % rate = 0 := by
      rw [hFull]
      rfl
    rw [absorb_of_full hFull, hNext]
    rfl

/- How far the current block is filled, after some bytes. -/
theorem filled_foldl_absorb
    (bytes : List UInt8)
    (s : Sponge) :
    (bytes.foldl absorb s).filled.val =
      (s.filled.val + bytes.length) % rate := by
  induction bytes generalizing s with
  | nil =>
      exact (Nat.mod_eq_of_lt s.filled.isLt).symm
  | cons b bytes ih =>
      rw [List.foldl_cons, ih, filled_absorb, Nat.mod_add_mod,
        List.length_cons, Nat.add_assoc, Nat.add_comm 1]

theorem addByte_zero
    (s : Lanes)
    {i : Nat}
    (hIndex : i < 200) :
    addByte s i hIndex 0 = s := by
  have hZero : (0 : UInt8).toUInt64 = 0 := by
    rfl
  unfold addByte
  rw [hZero, UInt64.zero_shiftLeft, UInt64.xor_zero,
    Vector.set_getElem_self]

/- Two bytes at the same place. -/
theorem addByte_addByte
    (s : Lanes)
    {i : Nat}
    (hIndex : i < 200)
    (b c : UInt8) :
    addByte (addByte s i hIndex b) i hIndex c =
      addByte s i hIndex (b ^^^ c) := by
  unfold addByte
  rw [Vector.set_set, Vector.getElem_set_self, UInt8.toUInt64_xor,
    UInt64.shiftLeft_xor, UInt64.xor_assoc]

/- Zeros fill the block, but leave the lanes as they are. -/
theorem foldl_absorb_zeros
    {s : Sponge}
    {count : Nat}
    (hRoom : s.filled.val + count < rate) :
    (List.replicate count 0).foldl absorb s =
      ⟨s.lanes, ⟨s.filled.val + count, hRoom⟩⟩ := by
  induction count generalizing s with
  | zero =>
      rfl
  | succ count ih =>
      have hNext : s.filled.val + 1 < rate := by
        omega
      rw [List.replicate_succ, List.foldl_cons, absorb_of_lt hNext,
        addByte_zero, ih (by dsimp only; omega)]
      dsimp only
      simp only [Nat.add_assoc, Nat.add_comm 1]

/-
  The marks at the end of a message and of its last block are
  those of the padding, which is one byte if they coincide.
-/
theorem close_eq
    {s : Sponge}
    {length : Nat}
    (hFilled : s.filled.val = length % rate) :
    s.close = ((padding length).foldl absorb s).lanes := by
  have hLess := s.filled.isLt
  unfold padding close
  dsimp only
  rw [← hFilled]
  by_cases hOne : rate - s.filled.val = 1
  · have hFull : s.filled.val = rate - 1 := by
      omega
    rw [if_pos hOne, List.foldl_cons, List.foldl_nil,
      absorb_of_full hFull]
    simp only [hFull]
    rw [addByte_addByte]
    rfl
  · have hNext : s.filled.val + 1 < rate := by
      omega
    have hZeros :
        s.filled.val + 1 + (rate - s.filled.val - 2) < rate := by
      omega
    have hFull :
        s.filled.val + 1 + (rate - s.filled.val - 2) = rate - 1 := by
      omega
    rw [if_neg hOne, List.foldl_cons, List.foldl_append,
      absorb_of_lt hNext, foldl_absorb_zeros hZeros, List.foldl_cons,
      List.foldl_nil, absorb_of_full hFull]
    simp only [hFull]

end Sponge

------------------------------------------------------------
-- Digests
------------------------------------------------------------

theorem square_permute_addBlock
    (s : Lanes)
    (block : List UInt8) :
    square (permute (addBlock s block)) =
      Square.absorb (square s) block := by
  have hAdded :
      square (addBlock s block) =
        fun x y => square s x y ^^^ lane block (x.val + 5 * y.val) := by
    funext x y
    unfold square addBlock
    rw [get_ofFn]
    rfl
  rw [square_permute, hAdded, Square.absorb]

/- The bytes of a lane are its digits to the base 256. -/
theorem toUInt8_shiftRight
    (lane : UInt64)
    {i : Nat}
    (hByte : i < 8) :
    (lane >>> (8 * i).toUInt64).toUInt8 =
      UInt8.ofNat (lane.toNat / 256 ^ i) := by
  have hSmall : 8 * i < 64 := by
    omega
  have hPlaces : (8 * i).toUInt64.toNat = 8 * i :=
    UInt64.toNat_ofNat_of_lt' (Nat.lt_trans hSmall (by decide))
  apply UInt8.toNat_inj.mp
  rw [UInt64.toNat_toUInt8, UInt64.toNat_shiftRight, hPlaces,
    Nat.mod_eq_of_lt hSmall, Nat.shiftRight_eq_div_pow, pow_mul,
    UInt8.toNat_ofNat']
  rfl

/- The digest is read off the lanes after all blocks. -/
theorem digest_eq_squeeze
    (message : List UInt8) :
    digest message =
      Square.squeeze
        (square (message.foldl Sponge.absorb .empty).close) := by
  unfold digest Square.squeeze
  dsimp only
  congr 1
  funext i
  rw [byteAt, toUInt8_shiftRight _ (Nat.mod_lt i.val (by decide))]
  rfl

/-
  Closing the sponge comes to absorbing the padding, and a
  padded message is absorbed block by block.
-/
theorem square_close
    (message : List UInt8) :
    square (message.foldl Sponge.absorb .empty).close =
      (blocks (message ++ padding message.length)).foldl
        Square.absorb fun _ _ => 0 := by
  have hFilled :
      (message.foldl Sponge.absorb .empty).filled.val =
        message.length % rate := by
    rw [Sponge.filled_foldl_absorb]
    exact congrArg (· % rate) (Nat.zero_add _)
  have hZero : square (Vector.replicate 25 0) = fun _ _ => 0 := by
    funext x y
    unfold square
    rw [get_eq_getElem, Fin.getElem_fin, Vector.getElem_replicate]
  have hEmpty : Sponge.empty = ⟨Vector.replicate 25 0, 0⟩ := by
    rfl
  rw [Sponge.close_eq hFilled, ← List.foldl_append, hEmpty,
    Sponge.foldl_absorb_blocks _
      (rate_dvd_length_append_padding message), ← hZero]
  exact (List.foldl_hom square fun s block =>
    (square_permute_addBlock s block).symm).symm

/-
  The digest of every message is that of its padded blocks,
  and padding leaves no part of a block. On the square, the
  permutation has its steps side by side; in place it moves
  one lane at a time and combines one row after the other.
  The square moves its lanes as it is defined to, rotated by
  the triangular numbers.
-/
theorem digest_eq_blockDigest :
    (∀ message, digest message = blockDigest message) ∧
      (∀ message : List UInt8,
        rate ∣ (message ++ padding message.length).length) ∧
      (∀ s, square (permute s) = Square.permute (square s)) ∧
      (∀ s, chi s = chiByRows s) ∧
      (∀ (A : Square) (x y : Fin 5),
        Square.pi (Square.rho A) y (2 * x + 3 * y) =
          Square.rotate (A x y) (Square.offset x y)) ∧
      ∀ x y : Fin 5,
        ((x, y) = (0, 0) ∧ Square.offset x y = 0) ∨
          ∃ t < 24, Square.walk t = (x, y) ∧
            Square.offset x y = (t + 1) * (t + 2) / 2 % 64 := by
  refine ⟨?_, rate_dvd_length_append_padding, square_permute,
    chi_eq_chiByRows, ?_, Square.first_or_exists_walk⟩
  · intro message
    rw [digest_eq_squeeze, square_close]
    rfl
  · intro A x y
    exact Square.pi_apply (Square.rho A) x y

end Keccak

end ContractLinker
