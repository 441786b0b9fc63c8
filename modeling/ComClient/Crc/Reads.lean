/-
  ComClient.Crc.Reads — the bytes that `check_CRC` looks at.

  The same functions as in `Crc.Code`, written as probes of the buffer: their values are
  those of `Crc.Code` (`checkCrcProbe_value`), and they have in addition the indices at
  which the buffer is read. `CRC` reads from the first byte up to `size - 2`, and the load
  of the trailer the two bytes from there on, wherever that is.

  - `checkCrc_inside_iff`: all of it is inside a buffer of at least `size` bytes if and only
    if `size` is at least 2.
-/

import ComClient.Crc.Code
import ComClient.Probe.Reads

namespace ComClient.Crc

open ComClient.Transport

/-- `buf[0]` to `buf[n - 1]`. -/
def indices (n : Int) : List Int := (List.range n.toNat).map fun i : Nat => (i : Int)

/-- `CRC` -/
def crcProbe (table : List (BitVec 16)) (n : Int) : Probe Int Byte (BitVec 16) :=
  (Probe.along (crcRound table) 0#16 (indices n)).andThen fun acc => .done ((acc >>> 8) ||| (acc <<< 8))

/-- `*(uint16_t *)(buffer + o)` -/
def load16Probe (o : Int) : Probe Int Byte (BitVec 16) := .peek o fun lo => .peek (o + 1) fun hi => .done (hi ++ lo)

/-- `check_CRC`; none where `size - 2` is no `int`. -/
def checkCrcProbe (size : Int) : Option (Probe Int Byte Bool) :=
  if fitsInt (size - 2) then
    some ((crcProbe sCrctable (size - 2)).andThen fun crc =>
      (load16Probe (size - 2)).andThen fun trailer => .done (crc == trailer))
  else none

@[simp] theorem crcProbe_value (table : List (BitVec 16)) (n : Int) (m : Mem) :
    (crcProbe table n).value m = crc table m n := by
  have hload : load m 0 n.toNat = (indices n).map m := by
    rw [load, indices, List.map_map]
    apply List.map_congr_left
    intro i _
    rw [Function.comp_apply, Int.zero_add]
  simp [crcProbe, crc, crcFold, hload]

@[simp] theorem crcProbe_reads (table : List (BitVec 16)) (n : Int) (m : Mem) :
    (crcProbe table n).reads m = indices n := by
  simp [crcProbe]

variable {size : Int} {p : Probe Int Byte Bool}

theorem checkCrcProbe_value (h : checkCrcProbe size = some p) (m : Mem) : p.value m = checkCrc m size := by
  obtain ⟨-, h⟩ := Option.ite_none_right_eq_some.mp h
  cases h
  simp [checkCrc, load16Probe, load16]

theorem checkCrcProbe_reads (h : checkCrcProbe size = some p) (m : Mem) :
    p.reads m = indices (size - 2) ++ [size - 2, size - 2 + 1] := by
  obtain ⟨-, h⟩ := Option.ite_none_right_eq_some.mp h
  cases h
  simp [load16Probe]

theorem mem_indices {n i : Int} : i ∈ indices n ↔ 0 ≤ i ∧ i < n := by
  unfold indices
  rw [List.mem_map]
  constructor
  · intro h
    obtain ⟨k, hk, rfl⟩ := h
    rw [List.mem_range] at hk
    omega
  · intro h
    exact ⟨i.toNat, List.mem_range.mpr (by omega), by omega⟩

/-- The trailer is inside where there are two bytes for it; then so is what is before it. -/
theorem checkCrc_inside_iff {room : Int} (hsize : size < 2 ^ 31) (hroom : size ≤ room) (m : Mem) :
    (∃ p, checkCrcProbe size = some p ∧ ∀ i ∈ p.reads m, 0 ≤ i ∧ i < room) ↔ 2 ≤ size := by
  constructor
  · intro h
    obtain ⟨p, hp, hin⟩ := h
    have hmem : size - 2 ∈ p.reads m := by
      rw [checkCrcProbe_reads hp]
      simp
    have hfirst := (hin _ hmem).1
    omega
  · intro h2
    have hfits : fitsInt (size - 2) = true := fitsInt_iff.mpr ⟨by omega, by omega⟩
    refine ⟨_, if_pos hfits, ?_⟩
    intro i hi
    rw [checkCrcProbe_reads (if_pos hfits), List.mem_append, mem_indices] at hi
    rcases hi with ⟨h0, hlt⟩ | hi
    · omega
    · simp only [List.mem_cons, List.not_mem_nil, or_false] at hi
      rcases hi with rfl | rfl
      · omega
      · omega

end ComClient.Crc
