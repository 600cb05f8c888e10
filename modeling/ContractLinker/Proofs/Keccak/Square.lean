import ContractLinker.Keccak.Permutation
import Mathlib

/-
  The permutation behind Keccak as it is defined, on a square
  of five by five lanes whose steps change all lanes at once,
  and the proof that the permutation on 25 lanes in a row,
  which works in place, is the same.

  Key definitions include:
    * `Keccak.Square`
    * `Keccak.Square.theta`
    * `Keccak.Square.rho`
    * `Keccak.Square.pi`
    * `Keccak.Square.chi`
    * `Keccak.Square.iota`
    * `Keccak.Square.permute`
    * `Keccak.square`
    * `Keccak.chiByRows`

  Main statements:
    * `Keccak.Square.pi_apply`
    * `Keccak.square_rhoPi`
    * `Keccak.chi_eq_chiByRows`
    * `Keccak.square_permute`
-/

------------------------------------------------------------
-- The Square Of Lanes
------------------------------------------------------------

namespace ContractLinker

namespace Keccak

/-
  Columns and rows are counted modulo five, and a numeral is
  one of them by this instance.
-/
@[instance] theorem neZeroFive :
    NeZero 5 :=
  ⟨Nat.succ_ne_zero 4⟩

/- The lanes `A[x][y]` in column `x` of row `y`. -/
abbrev Square :=
  Fin 5 → Fin 5 → UInt64

namespace Square

/- Rotate a lane towards its high end. -/
def rotate (lane : UInt64) (places : Nat) : UInt64 :=
  UInt64.ofBitVec (lane.toBitVec.rotateLeft places)

/- The sum of the lanes of a column. -/
def column (A : Square) (x : Fin 5) : UInt64 :=
  A x 0 ^^^ A x 1 ^^^ A x 2 ^^^ A x 3 ^^^ A x 4

/- Add to each lane the column before it and, rotated, the one behind. -/
def theta (A : Square) : Square :=
  fun x y =>
    A x y ^^^ (column A (x - 1) ^^^ rotate (column A (x + 1)) 1)

/- How far the lanes are rotated, by column. -/
def offsets : Vector (Vector Nat 5) 5 :=
  #v[#v[0, 36, 3, 41, 18],
    #v[1, 44, 10, 45, 2],
    #v[62, 6, 43, 15, 61],
    #v[28, 55, 25, 21, 56],
    #v[27, 20, 39, 8, 14]]

/- The offset of a lane. -/
def offset (x y : Fin 5) : Nat :=
  (offsets.get x).get y

/- Rotate each lane by its offset. -/
def rho (A : Square) : Square :=
  fun x y => rotate (A x y) (offset x y)

/- Move the lane at `x` and `y` to `y` and `2 * x + 3 * y`. -/
def pi (A : Square) : Square :=
  fun x y => A (x + 3 * y) x

/- Combine each lane with the two behind it in its row. -/
def chi (A : Square) : Square :=
  fun x y => A x y ^^^ (~~~ A (x + 1) y &&& A (x + 2) y)

/- Add a constant to the first lane. -/
def iota (constant : UInt64) (A : Square) : Square :=
  fun x y => if x = 0 ∧ y = 0 then A x y ^^^ constant else A x y

theorem rotate_zero
    (lane : UInt64) :
    rotate lane 0 = lane := by
  apply UInt64.eq_of_toBitVec_eq
  unfold rotate
  rw [UInt64.toBitVec_ofBitVec, BitVec.rotateLeft_def, Nat.zero_mod,
    BitVec.shiftLeft_zero, Nat.sub_zero,
    BitVec.ushiftRight_eq_zero (Nat.le_refl 64), BitVec.or_zero]

------------------------------------------------------------
-- Rounds
------------------------------------------------------------

/-
  The register which makes the constants, with feedback by
  the polynomial `x ^ 8 + x ^ 6 + x ^ 5 + x ^ 4 + 1`.
-/
def register : Nat → UInt8
  | 0 => 1
  | t + 1 =>
      (register t <<< 1) ^^^
        (if register t &&& 0x80 = 0 then 0 else 0x71)

/- Bit `2 ^ j - 1` of a constant is the low bit of the register. -/
def constant (i : Nat) : UInt64 :=
  (List.range 7).foldl
    (fun c j =>
      if register (7 * i + j) &&& 1 = 1 then
        c ||| (1 <<< UInt64.ofNat (2 ^ j - 1))
      else
        c)
    0

/- All steps with the constant of a round. -/
def round (A : Square) (i : Nat) : Square :=
  iota (constant i) (chi (pi (rho (theta A))))

/- All 24 rounds. -/
def permute (A : Square) : Square :=
  (List.range 24).foldl round A

------------------------------------------------------------
-- The Tables
------------------------------------------------------------

/- The places along which the offsets grow. -/
def walk : Nat → Fin 5 × Fin 5
  | 0 => (1, 0)
  | t + 1 => ((walk t).2, 2 * (walk t).1 + 3 * (walk t).2)

/-
  The offsets along the walk, which meets every place but the
  first one, are the triangular numbers.
-/
theorem first_or_exists_walk :
    ∀ x y : Fin 5,
      ((x, y) = (0, 0) ∧ offset x y = 0) ∨
        ∃ t < 24, walk t = (x, y) ∧
          offset x y = (t + 1) * (t + 2) / 2 % 64 := by
  decide +kernel

theorem pi_apply
    (A : Square)
    (x y : Fin 5) :
    pi A y (2 * x + 3 * y) = A x y := by
  have hColumn : y + 3 * (2 * x + 3 * y) = x := by
    revert x y
    decide
  unfold pi
  rw [hColumn]

/- The constants of the table are those of the register. -/
theorem map_constant :
    (List.range 24).map constant = roundConstants := by
  decide +kernel

end Square

------------------------------------------------------------
-- Lanes In A Square
------------------------------------------------------------

/- Where a lane of the square stands among all lanes. -/
def place (x y : Fin 5) : Fin 25 :=
  ⟨x.val + 5 * y.val, by omega⟩

/- The lanes as a square. -/
def square (s : Lanes) : Square :=
  fun x y => s.get (place x y)

/- Every lane has its column and its row. -/
theorem place_mod_div
    (i : Fin 25) :
    place ⟨i.val % 5, by omega⟩ ⟨i.val / 5, by omega⟩ = i := by
  apply Fin.ext
  exact Nat.mod_add_div i.val 5

theorem get_eq_getElem
    {n : Nat}
    (lanes : Vector UInt64 n)
    (i : Fin n) :
    lanes.get i = lanes[i] := by
  rfl

theorem get_ofFn
    {n : Nat}
    (lanes : Fin n → UInt64)
    (i : Fin n) :
    (Vector.ofFn lanes).get i = lanes i := by
  rw [get_eq_getElem, Fin.getElem_fin, Vector.getElem_ofFn]

/- Put a lane in the place of another. -/
def put {n : Nat} (lanes : Vector UInt64 n) (i : Fin n)
    (lane : UInt64) : Vector UInt64 n :=
  lanes.set i.val lane i.isLt

theorem get_put
    {n : Nat}
    (lanes : Vector UInt64 n)
    (i j : Fin n)
    (lane : UInt64) :
    (put lanes i lane).get j = if j = i then lane else lanes.get j := by
  rw [get_eq_getElem, get_eq_getElem, put]
  simp only [Fin.getElem_fin, Vector.getElem_set, Fin.ext_iff,
    eq_comm]

/- Shifts in both directions make a rotation. -/
theorem rotate_eq
    (lane : UInt64)
    {places : UInt64}
    (hPositive : 0 < places.toNat)
    (hPlaces : places.toNat < 64) :
    rotate lane places = Square.rotate lane places.toNat := by
  have hLeft : (places.toBitVec % 64).toNat = places.toNat := by
    rw [BitVec.toNat_umod, UInt64.toNat_toBitVec]
    exact Nat.mod_eq_of_lt hPlaces
  have hRight :
      ((64 - places).toBitVec % 64).toNat = 64 - places.toNat := by
    rw [BitVec.toNat_umod, UInt64.toNat_toBitVec,
      UInt64.toNat_sub_of_le _ _ (UInt64.le_iff_toNat_le.mpr hPlaces.le)]
    exact Nat.mod_eq_of_lt (Nat.sub_lt (by decide) hPositive)
  apply UInt64.eq_of_toBitVec_eq
  unfold rotate Square.rotate
  rw [UInt64.toBitVec_or, UInt64.toBitVec_shiftLeft,
    UInt64.toBitVec_shiftRight, BitVec.shiftLeft_eq',
    BitVec.ushiftRight_eq', hLeft, hRight, UInt64.toBitVec_ofBitVec,
    BitVec.rotateLeft_def, Nat.mod_eq_of_lt hPlaces]

------------------------------------------------------------
-- Theta
------------------------------------------------------------

theorem column_square
    (s : Lanes)
    (x : Fin 5) :
    Square.column (square s) x = parity s x := by
  rfl

theorem square_theta
    (s : Lanes) :
    square (theta s) = Square.theta (square s) := by
  have hBefore : ∀ x : Fin 5, x + 4 = x - 1 := by
    decide
  funext x y
  have hColumn : (place x y).val % 5 = x.val := by
    change (x.val + 5 * y.val) % 5 = x.val
    omega
  have hRotate := fun lane =>
    rotate_eq lane (by decide) (by decide : (1 : UInt64).toNat < 64)
  unfold square theta Square.theta
  simp only [get_ofFn, Vector.getElem_ofFn, hColumn, hBefore, hRotate,
    ← column_square]
  rfl

------------------------------------------------------------
-- Rho And Pi
------------------------------------------------------------

/- Put the carried lane down at a stop, and take on what is there. -/
def carry (state : Lanes × UInt64) (stop : Fin 25 × UInt64) :
    Lanes × UInt64 :=
  (put state.1 stop.1 (rotate state.2 stop.2), state.1.get stop.1)

/- The stops, each with the place from which its lane is carried. -/
def moves (source : Fin 25) :
    List (Fin 25 × UInt64) → List (Fin 25 × Fin 25 × UInt64)
  | [] => []
  | (target, places) :: stops =>
      (target, source, places) :: moves target stops

/- A lane at which the way does not stop stays. -/
theorem get_foldl_carry_of_notMem
    {stops : List (Fin 25 × UInt64)}
    {i : Fin 25}
    (hOther : i ∉ stops.map Prod.fst)
    (s : Lanes)
    (carried : UInt64) :
    (stops.foldl carry (s, carried)).1.get i = s.get i := by
  induction stops generalizing s carried with
  | nil =>
      rfl
  | cons stop stops ih =>
      rw [List.map_cons, List.mem_cons, not_or] at hOther
      rw [List.foldl_cons, carry, ih hOther.2, get_put,
        if_neg hOther.1]

/-
  The induction is along the way. What matters is that the
  stops ahead still hold the lanes they held at the start.
-/
theorem get_foldl_carry
    {stops : List (Fin 25 × UInt64)}
    (hDistinct : (stops.map Prod.fst).Nodup)
    {s t : Lanes}
    (hAhead : ∀ stop ∈ stops, t.get stop.1 = s.get stop.1)
    {source target origin : Fin 25}
    {places : UInt64}
    (hMember : (target, origin, places) ∈ moves source stops) :
    (stops.foldl carry (t, s.get source)).1.get target =
      rotate (s.get origin) places := by
  induction stops generalizing source t with
  | nil =>
      cases hMember
  | cons stop stops ih =>
      rw [List.map_cons, List.nodup_cons] at hDistinct
      rw [List.foldl_cons, carry, hAhead stop List.mem_cons_self]
      rcases List.mem_cons.mp hMember with hHead | hTail
      · cases hHead
        rw [get_foldl_carry_of_notMem hDistinct.1, get_put,
          if_pos rfl]
      · apply ih hDistinct.2 _ hTail
        intro ahead hAheadMember
        have hOther : ahead.1 ≠ stop.1 := by
          intro hSame
          apply hDistinct.1
          rw [← hSame]
          exact List.mem_map_of_mem hAheadMember
        rw [get_put, if_neg hOther]
        exact hAhead ahead (List.mem_cons_of_mem stop hAheadMember)

/- The cycle carries every lane but the first as the square moves it. -/
theorem mem_moves_cycle :
    ∀ x y : Fin 5, (x, y) ≠ (0, 0) →
      0 < Square.offset (x + 3 * y) x ∧
        Square.offset (x + 3 * y) x < 64 ∧
        (place x y, place (x + 3 * y) x,
            UInt64.ofNat (Square.offset (x + 3 * y) x)) ∈
          moves 1 cycle := by
  decide +kernel

theorem square_rhoPi
    (s : Lanes) :
    square (rhoPi s) = Square.pi (Square.rho (square s)) := by
  have hCycle : rhoPi s = (cycle.foldl carry (s, s.get 1)).1 := by
    rfl
  funext x y
  unfold Square.pi Square.rho square
  rw [hCycle]
  by_cases hFirst : (x, y) = (0, 0)
  · cases hFirst
    rw [get_foldl_carry_of_notMem (by decide)]
    exact (Square.rotate_zero _).symm
  · rcases mem_moves_cycle x y hFirst with
      ⟨hPositive, hPlaces, hMember⟩
    have hOffset :
        (UInt64.ofNat (Square.offset (x + 3 * y) x)).toNat =
          Square.offset (x + 3 * y) x :=
      UInt64.toNat_ofNat_of_lt' (lt_trans hPlaces (by decide))
    have hAhead : ∀ stop ∈ cycle, s.get stop.1 = s.get stop.1 := by
      intro stop _
      rfl
    rw [get_foldl_carry (by decide) hAhead hMember]
    rw [← hOffset] at hPositive hPlaces
    rw [rotate_eq _ hPositive hPlaces, hOffset]

------------------------------------------------------------
-- Chi
------------------------------------------------------------

theorem besideInRow_place
    (s : Lanes)
    (x y : Fin 5)
    (columns : Nat) :
    besideInRow s (place x y) columns =
      square s (x + Fin.ofNat 5 columns) y := by
  unfold besideInRow square
  congr 1
  apply Fin.ext
  change (x.val + 5 * y.val) / 5 * 5 +
      (x.val + 5 * y.val + columns) % 5 =
    (x + Fin.ofNat 5 columns).val + 5 * y.val
  rw [Fin.val_add, Fin.val_ofNat]
  omega

theorem square_chi
    (s : Lanes) :
    square (chi s) = Square.chi (square s) := by
  funext x y
  unfold Square.chi
  rw [square, chi, get_ofFn, besideInRow_place, besideInRow_place]
  rfl

/- A row is copied before its lanes are changed one by one. -/
def chiRow (s : Lanes) (y : Fin 5) : Lanes :=
  let row : Fin 5 → UInt64 := fun x => s.get (place x y)
  (List.finRange 5).foldl
    (fun s x =>
      put s (place x y)
        (s.get (place x y) ^^^ (~~~ row (x + 1) &&& row (x + 2))))
    s

/- The rows one after the other, each in its place. -/
def chiByRows (s : Lanes) : Lanes :=
  (List.finRange 5).foldl chiRow s

theorem place_inj
    {x y x' y' : Fin 5} :
    place x y = place x' y' ↔ x = x' ∧ y = y' := by
  revert x y x' y'
  decide

/- Changes of different lanes of a row do not disturb each other. -/
theorem square_foldl_put
    (change : Fin 5 → UInt64)
    (y : Fin 5)
    {xs : List (Fin 5)}
    (hDistinct : xs.Nodup)
    (s : Lanes)
    (x' y' : Fin 5) :
    square
        (xs.foldl
          (fun s x =>
            put s (place x y) (s.get (place x y) ^^^ change x))
          s)
        x' y' =
      if x' ∈ xs ∧ y' = y then
        square s x' y' ^^^ change x'
      else
        square s x' y' := by
  induction xs generalizing s with
  | nil =>
      simp
  | cons x xs ih =>
      rw [List.nodup_cons] at hDistinct
      rw [List.foldl_cons, ih hDistinct.2]
      unfold square
      rw [get_put]
      by_cases hHere : x' = x ∧ y' = y
      · rcases hHere with ⟨rfl, rfl⟩
        rw [if_neg (fun hMember => hDistinct.1 hMember.1),
          if_pos rfl, if_pos ⟨List.mem_cons_self, rfl⟩]
      · have hPlace : place x' y' ≠ place x y :=
          fun hSame => hHere (place_inj.mp hSame)
        rw [if_neg hPlace]
        congr 1
        rw [List.mem_cons, eq_iff_iff]
        constructor
        · exact fun hMember => ⟨Or.inr hMember.1, hMember.2⟩
        · rintro ⟨hColumn | hMember, hRow⟩
          · exact absurd ⟨hColumn, hRow⟩ hHere
          · exact ⟨hMember, hRow⟩

theorem square_chiRow
    (s : Lanes)
    (y x' y' : Fin 5) :
    square (chiRow s y) x' y' =
      if y' = y then Square.chi (square s) x' y'
      else square s x' y' := by
  unfold chiRow
  rw [square_foldl_put _ y (List.nodup_finRange 5)]
  by_cases hRow : y' = y
  · subst hRow
    rw [if_pos ⟨List.mem_finRange x', rfl⟩, if_pos rfl]
    rfl
  · rw [if_neg (fun hBoth => hRow hBoth.2), if_neg hRow]

/- A row depends on itself alone, so the rows before it do not matter. -/
theorem square_foldl_chiRow
    {ys : List (Fin 5)}
    (hDistinct : ys.Nodup)
    (s : Lanes)
    (x y : Fin 5) :
    square (ys.foldl chiRow s) x y =
      if y ∈ ys then Square.chi (square s) x y else square s x y := by
  induction ys generalizing s with
  | nil =>
      simp
  | cons first ys ih =>
      rw [List.nodup_cons] at hDistinct
      rw [List.foldl_cons, ih hDistinct.2]
      by_cases hFirst : y = first
      · subst hFirst
        rw [if_neg hDistinct.1, if_pos List.mem_cons_self,
          square_chiRow, if_pos rfl]
      · have hRow : ∀ x',
            square (chiRow s first) x' y = square s x' y := by
          intro x'
          rw [square_chiRow, if_neg hFirst]
        unfold Square.chi
        rw [hRow, hRow, hRow]
        congr 1
        rw [List.mem_cons, eq_iff_iff]
        exact (or_iff_right hFirst).symm

/- Lanes which make the same square are the same. -/
theorem square_injective :
    Function.Injective square := by
  intro s t hSame
  apply Vector.ext
  intro i hIndex
  have hLane := congrFun
    (congrFun hSame ⟨i % 5, by omega⟩) ⟨i / 5, by omega⟩
  simp only [square, place_mod_div ⟨i, hIndex⟩] at hLane
  exact hLane

theorem chi_eq_chiByRows
    (s : Lanes) :
    chi s = chiByRows s := by
  apply square_injective
  funext x y
  rw [square_chi, chiByRows,
    square_foldl_chiRow (List.nodup_finRange 5),
    if_pos (List.mem_finRange y)]

------------------------------------------------------------
-- All Rounds
------------------------------------------------------------

theorem square_iota
    (constant : UInt64)
    (s : Lanes) :
    square (iota constant s) = Square.iota constant (square s) := by
  have hFirst : ∀ x y : Fin 5, place x y = 0 ↔ x = 0 ∧ y = 0 := by
    decide
  funext x y
  unfold Square.iota
  rw [square, iota]
  refine (get_put s 0 (place x y) _).trans ?_
  by_cases hZero : x = 0 ∧ y = 0
  · rw [if_pos ((hFirst x y).mpr hZero), if_pos hZero]
    rcases hZero with ⟨rfl, rfl⟩
    rfl
  · rw [if_neg (mt (hFirst x y).mp hZero), if_neg hZero]
    rfl

theorem square_round
    (s : Lanes)
    (i : Nat) :
    square (round s (Square.constant i)) =
      Square.round (square s) i := by
  unfold round Square.round
  rw [square_iota, square_chi, square_rhoPi, square_theta]

/- The permutation in place is the one which is defined on the square. -/
theorem square_permute
    (s : Lanes) :
    square (permute s) = Square.permute (square s) := by
  unfold permute Square.permute
  rw [← Square.map_constant, List.foldl_map]
  exact (List.foldl_hom square fun s i => (square_round s i).symm).symm

end Keccak

end ContractLinker
