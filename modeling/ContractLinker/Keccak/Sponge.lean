import ContractLinker.Keccak.Permutation
import ContractLinker.Text.Hex

/-
  Keccak-256. The sponge takes a message byte by byte,
  permutes its lanes whenever a block of 136 bytes is full,
  and gives the first 32 bytes of its lanes after the
  closing marks.

  Key definitions include:
    * `Keccak.Sponge`
    * `Keccak.Sponge.absorb`
    * `Keccak.digest`
    * `Keccak.hexDigest`
-/

------------------------------------------------------------
-- The Sponge
------------------------------------------------------------

namespace ContractLinker

namespace Keccak

/- The bytes of a block: 1600 bits less twice 256. -/
abbrev rate : Nat :=
  136

/- The bytes of a digest. -/
def digestSize : Nat :=
  32

/- A byte of the lanes, each lane beginning with its low byte. -/
def byteAt (s : Lanes) (i : Nat) (h : i < 200) : UInt8 :=
  (s[i / 8] >>> (8 * (i % 8)).toUInt64).toUInt8

/- Add a byte to the lanes. -/
def addByte (s : Lanes) (i : Nat) (h : i < 200) (b : UInt8) :
    Lanes :=
  s.set (i / 8)
    (s[i / 8] ^^^ (b.toUInt64 <<< (8 * (i % 8)).toUInt64))

/- The lanes and how many bytes of the current block they hold. -/
structure Sponge where
  lanes : Lanes
  filled : Fin rate

namespace Sponge

/- A sponge which has taken nothing. -/
def empty : Sponge where
  lanes := Vector.replicate 25 0
  filled := 0

/- The place of the next byte lies within the lanes. -/
theorem filled_lt (s : Sponge) : s.filled.val < 200 :=
  Nat.lt_trans s.filled.isLt (by decide)

/- Take one byte, and permute if it fills the block. -/
def absorb (s : Sponge) (b : UInt8) : Sponge :=
  let lanes := addByte s.lanes s.filled.val s.filled_lt b
  if h : s.filled.val + 1 < rate then
    { lanes := lanes, filled := ⟨s.filled.val + 1, h⟩ }
  else
    { lanes := permute lanes, filled := 0 }

/- Mark the end of the message and of the block, and permute. -/
def close (s : Sponge) : Lanes :=
  let lanes := addByte s.lanes s.filled.val s.filled_lt 0x01
  permute (addByte lanes (rate - 1) (by decide) 0x80)

end Sponge

------------------------------------------------------------
-- Digests
------------------------------------------------------------

/- The digest of a message. -/
def digest (message : List UInt8) : List UInt8 :=
  let lanes := (message.foldl Sponge.absorb .empty).close
  List.ofFn fun i : Fin digestSize =>
    byteAt lanes i.val (Nat.lt_trans i.isLt (by decide))

/- The digest of a message in lower-case hexadecimal. -/
def hexDigest (message : List UInt8) : Text :=
  Hex.encode .lower (digest message)

end Keccak

end ContractLinker
