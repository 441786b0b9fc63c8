/-
  ComClient.Crc.Serial — the table-driven `CRC` computes the bit-serial one.

  `bitSerial` is the checksum as it is defined: one message bit a step. `CRC` takes a
  byte a step, through a table that `mk_crctable` filled. A round over a byte is eight
  bits fed into the register (`crcRound_eq`), so the loop over a buffer is the
  bit-serial loop over its bits (`foldl_crcRound`), for every generator.
-/

import ComClient.Crc.Code

namespace ComClient.Crc

open ComClient.Transport ComClient.Gf2

/-! ## The checksum, a bit at a time -/

/-- The register shifts left, and takes in `genpoly` when the bit shifted out differs from
    the message bit. -/
def shiftBit (genpoly reg : BitVec 16) (b : Bool) : BitVec 16 :=
  if reg.msb ≠ b then (reg <<< 1) ^^^ genpoly else reg <<< 1

def bitSerial (genpoly : BitVec 16) (bits : List Bool) : BitVec 16 := bits.foldl (shiftBit genpoly) 0#16

/-- The bits of a byte, most significant first. -/
def bitsOfByte (b : Byte) : List Bool := (List.range 8).map (byteBits b)

def bitsOf (bytes : List Byte) : List Bool := bytes.flatMap bitsOfByte

def swapBytes (v : BitVec 16) : BitVec 16 := v.setWidth 8 ++ (v >>> 8).setWidth 8

/-! ## A byte a round is eight bits -/

theorem shiftBit_eq_feed (g : BitVec 16) : shiftBit g = feed g := by
  funext reg b
  unfold shiftBit feed
  cases reg.msb <;> cases b <;> rfl

theorem feeds_eq_foldl (g : BitVec 16) (f : Nat → Bool) (reg : BitVec 16) (n : Nat) :
    feeds g f reg n = ((List.range n).map f).foldl (shiftBit g) reg := by
  rw [shiftBit_eq_feed]
  induction n with
  | zero => rfl
  | succ n ih =>
    rw [feeds, ih, List.range_succ, List.map_append, List.foldl_append]
    rfl

theorem foldl_crcRound (g : BitVec 16) (bytes : List Byte) (acc : BitVec 16) :
    bytes.foldl (crcRound (mkCrctable g)) acc = (bitsOf bytes).foldl (shiftBit g) acc := by
  induction bytes generalizing acc with
  | nil => rfl
  | cons b bytes ih =>
    have hbits : bitsOf (b :: bytes) = bitsOfByte b ++ bitsOf bytes := List.flatMap_cons
    rw [List.foldl_cons, ih, crcRound_eq, feeds_eq_foldl, hbits, List.foldl_append]
    rfl

/-! ## The table is never left -/

theorem length_mkCrctable (g : BitVec 16) : (mkCrctable g).length = 256 := by simp [mkCrctable]

theorem index_lt (acc : BitVec 16) (b : Byte) : (acc >>> 8).toNat ^^^ b.toNat < 256 := by
  rw [table_index]
  exact ((acc >>> 8).setWidth 8 ^^^ b).isLt

/-- For every generator and every buffer of any length: `CRC` is the byte-swapped register
    of the bit-serial checksum over the bits of the buffer; each round reads the table at
    an index below 256; and `mk_crctable` stores all 256 entries. -/
theorem crc_eq_bitSerial (genpoly : BitVec 16) (buf : Mem) (n : Nat) :
    crc (mkCrctable genpoly) buf n = swapBytes (bitSerial genpoly (bitsOf (load buf 0 n))) ∧
      (∀ i < n, (crcFold (mkCrctable genpoly) buf i >>> 8).toNat ^^^ (buf i).toNat < 256) ∧
      (mkCrctable genpoly).length = 256 ∧
      ∀ data < 256, (mkCrctable genpoly)[data]? = some (entryLoop genpoly 8 (BitVec.ofNat 16 data <<< 8) 0#16) := by
  refine ⟨?_, fun i _ => index_lt _ _, length_mkCrctable genpoly, ?_⟩
  · have hfold : crcFold (mkCrctable genpoly) buf n = bitSerial genpoly (bitsOf (load buf 0 n)) := foldl_crcRound _ _ _
    rw [crc, Int.toNat_natCast, hfold]
    exact swap_bytes _
  · intro data hdata
    simp [mkCrctable, hdata]

/-- The check value of this checksum, over the digits 1 to 9. -/
example : bitSerial 0x1021#16 (bitsOf [49, 50, 51, 52, 53, 54, 55, 56, 57]) = 0x31C3#16 := by decide +kernel

end ComClient.Crc
