/-
  The permutation behind Keccak, on 25 lanes of 64 bits.
  Lane `x + 5 * y` stands in column `x` of row `y`. A round
  mixes the columns (`theta`), rotates the lanes while
  moving them along one cycle (`rhoPi`), combines the lanes
  of each row (`chi`) and adds a constant (`iota`).

  Key definitions include:
    * `Keccak.Lanes`
    * `Keccak.theta`
    * `Keccak.rhoPi`
    * `Keccak.chi`
    * `Keccak.iota`
    * `Keccak.permute`
-/

------------------------------------------------------------
-- Lanes
------------------------------------------------------------

namespace ContractLinker

namespace Keccak

/- The state of the permutation. -/
abbrev Lanes :=
  Vector UInt64 25

/- Rotate a lane towards its high end by fewer than 64 places. -/
def rotate (lane : UInt64) (places : UInt64) : UInt64 :=
  (lane <<< places) ||| (lane >>> (64 - places))

------------------------------------------------------------
-- Steps Of A Round
------------------------------------------------------------

/- The sum of the lanes of a column. -/
def parity (s : Lanes) (x : Fin 5) : UInt64 :=
  s[x.val] ^^^ s[x.val + 5] ^^^ s[x.val + 10] ^^^
    s[x.val + 15] ^^^ s[x.val + 20]

/- Add to each lane the parities of the two columns beside it. -/
def theta (s : Lanes) : Lanes :=
  let columns : Vector UInt64 5 := Vector.ofFn (parity s)
  let change : Vector UInt64 5 :=
    Vector.ofFn fun x : Fin 5 =>
      columns[(x + 4).val] ^^^ rotate columns[(x + 1).val] 1
  Vector.ofFn fun i : Fin 25 =>
    s[i] ^^^ change.get ⟨i.val % 5, Nat.mod_lt _ (by decide)⟩

/-
  The cycle along which the lanes move, beginning behind
  lane 1, and how far the lane that arrives is rotated.
-/
def cycle : List (Fin 25 × UInt64) :=
  [ (10, 1), (7, 3), (11, 6), (17, 10), (18, 15), (3, 21),
    (5, 28), (16, 36), (8, 45), (21, 55), (24, 2), (4, 14),
    (15, 27), (23, 41), (19, 56), (13, 8), (12, 25), (2, 43),
    (20, 62), (14, 18), (22, 39), (9, 61), (6, 20), (1, 44) ]

/-
  Carry one lane along the cycle: at every stop the carried
  lane is put down rotated and the one found there is taken
  on.
-/
def rhoPi (s : Lanes) : Lanes :=
  (cycle.foldl
    (fun (state : Lanes × UInt64) (stop : Fin 25 × UInt64) =>
      (state.1.set stop.1 (rotate state.2 stop.2),
        state.1[stop.1]))
    (s, s[1])).1

/- The lane of the same row, some columns further on. -/
def besideInRow (s : Lanes) (i : Fin 25) (columns : Nat) : UInt64 :=
  s.get ⟨i.val / 5 * 5 + (i.val + columns) % 5, by omega⟩

/- Combine every lane with the two behind it in its row. -/
def chi (s : Lanes) : Lanes :=
  Vector.ofFn fun i : Fin 25 =>
    s[i] ^^^ (~~~ besideInRow s i 1 &&& besideInRow s i 2)

/- Add a constant to the first lane. -/
def iota (constant : UInt64) (s : Lanes) : Lanes :=
  s.set 0 (s[0] ^^^ constant)

------------------------------------------------------------
-- The Permutation
------------------------------------------------------------

/- The constants of the 24 rounds. -/
def roundConstants : List UInt64 :=
  [ 0x0000000000000001, 0x0000000000008082,
    0x800000000000808a, 0x8000000080008000,
    0x000000000000808b, 0x0000000080000001,
    0x8000000080008081, 0x8000000000008009,
    0x000000000000008a, 0x0000000000000088,
    0x0000000080008009, 0x000000008000000a,
    0x000000008000808b, 0x800000000000008b,
    0x8000000000008089, 0x8000000000008003,
    0x8000000000008002, 0x8000000000000080,
    0x000000000000800a, 0x800000008000000a,
    0x8000000080008081, 0x8000000000008080,
    0x0000000080000001, 0x8000000080008008 ]

/- One round with its constant. -/
def round (s : Lanes) (constant : UInt64) : Lanes :=
  iota constant (chi (rhoPi (theta s)))

/- All rounds. -/
def permute (s : Lanes) : Lanes :=
  roundConstants.foldl round s

end Keccak

end ContractLinker
