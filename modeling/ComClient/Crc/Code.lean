/-
  ComClient.Crc.Code — the checksum of `Client` (`src/com_client.cpp`: `mk_crctable`,
  `CRC`, `check_CRC`) and what it computes.

  `mk_crctable` fills the static table once in the process, for the default generator
  0x1021; the model takes the generator as an argument where the code does. `CRC` runs
  over the first `n` bytes of the buffer and swaps the two bytes of its register at the
  end; `check_CRC` compares the result with the two bytes behind, loaded through a
  `uint16_t *` on a little-endian host. So the trailer of an accepted frame is the
  register, high byte first (`checkCrc_iff_register`).

  Proved, for every generator:
  - `tableEntry_eq`: an entry of the table is what eight message bits leave in an
    empty register, fed one at a time.
  - `crcRound_eq`: a round of `CRC` is eight bits fed into the register.
  - `crcFold_eq`: so the loop leaves what the bits of the buffer leave, most
    significant bit of each byte first (`bitAt`).
-/

import ComClient.Transport.Memory
import ComClient.Gf2.Register

namespace ComClient.Crc

open ComClient.Transport ComClient.Gf2

/-! ## The code -/

/-- The inner loop of `mk_crctable`, with `i` rounds left. -/
def entryLoop (genpoly : BitVec 16) : Nat → BitVec 16 → BitVec 16 → BitVec 16
  | 0, _, accum => accum
  | i + 1, d, accum =>
    entryLoop genpoly i (d <<< 1)
      (if (d ^^^ accum) &&& 0x8000#16 ≠ 0#16 then (accum <<< 1) ^^^ genpoly else accum <<< 1)

def mkCrctable (genpoly : BitVec 16) : List (BitVec 16) :=
  (List.range 256).map fun data => entryLoop genpoly 8 (BitVec.ofNat 16 data <<< 8) 0#16

/-- The static table, once a client exists. -/
def sCrctable : List (BitVec 16) := mkCrctable 0x1021#16

/-- One round of the loop of `CRC`. -/
def crcRound (table : List (BitVec 16)) (acc : BitVec 16) (b : Byte) : BitVec 16 :=
  (acc <<< 8) ^^^ table.getD ((acc >>> 8).toNat ^^^ b.toNat) 0#16

/-- The accumulator after the loop of `CRC` over `buf[0..n)`. -/
def crcFold (table : List (BitVec 16)) (buf : Mem) (n : Nat) : BitVec 16 :=
  (load buf 0 n).foldl (crcRound table) 0#16

/-- `CRC`: no round for a negative `n`. -/
def crc (table : List (BitVec 16)) (buf : Mem) (n : Int) : BitVec 16 :=
  let acc := crcFold table buf n.toNat
  (acc >>> 8) ||| (acc <<< 8)

/-- `check_CRC`, where `size - 2` is an `int`. -/
def checkCrc (buffer : Mem) (size : Int) : Bool := crc sCrctable buffer (size - 2) == load16 buffer (size - 2)

/-- Bit `p` of a buffer: byte by byte, most significant bit first. -/
def bitAt (m : Mem) (p : Nat) : Bool := (m (p / 8 : Nat)).getLsbD (7 - p % 8)

/-! ## The table -/

/-- The bits of a byte, most significant first. -/
def byteBits (b : Byte) (p : Nat) : Bool := b.getLsbD (7 - p)

theorem top_bit (d : BitVec 16) : d &&& 0x8000#16 ≠ 0#16 ↔ d.msb = true := by
  rw [BitVec.msb_eq_getLsbD_last]
  constructor
  · intro h
    cases hb : d.getLsbD 15
    · refine absurd (BitVec.eq_of_getLsbD_eq fun i hi => ?_) h
      rw [BitVec.getLsbD_and, show (0x8000#16).getLsbD i = decide (i = 15) by decide +revert]
      by_cases e : i = 15
      · subst e; rw [hb]; rfl
      · simp [e]
    · rfl
  · intro h h0
    have hb : (d &&& 0x8000#16).getLsbD 15 = true := by
      rw [BitVec.getLsbD_and, h]; decide
    rw [h0] at hb
    exact absurd hb (by decide)

/-- `mk_crctable` feeds the bits of `d`, the top one first. -/
theorem entryLoop_eq (g : BitVec 16) (n : Nat) (hn : n ≤ 16) (d a : BitVec 16) :
    entryLoop g n d a = feeds g (fun p => d.getLsbD (15 - p)) a n := by
  induction n generalizing d a with
  | zero => rfl
  | succ n ih =>
    rw [feeds_succ', entryLoop, ih (by omega)]
    have hfeed : (if (d ^^^ a) &&& 0x8000#16 ≠ 0#16 then (a <<< 1) ^^^ g else a <<< 1) =
        feed g a (d.getLsbD 15) := by
      have hm : (d ^^^ a).msb = (a.msb ^^ d.getLsbD 15) := by
        rw [BitVec.msb_xor, Bool.xor_comm]; congr 1
      simp only [top_bit, hm, feed]
    rw [hfeed]
    apply feeds_congr
    intro p hp
    rw [BitVec.getLsbD_shiftLeft, show 15 - p - 1 = 15 - (p + 1) by omega]
    simp [show 15 - p < 16 by omega, show ¬ 15 - p < 1 by omega]

theorem tableEntry_eq (g : BitVec 16) (b : Byte) :
    (mkCrctable g).getD b.toNat 0#16 = feeds g (byteBits b) 0#16 8 := by
  have hb := b.isLt
  rw [mkCrctable, List.getD_eq_getElem _ _ (by simpa using hb), List.getElem_map, List.getElem_range,
    entryLoop_eq g 8 (by omega)]
  apply feeds_congr
  intro p hp
  rw [BitVec.getLsbD_shiftLeft, BitVec.getLsbD_ofNat, byteBits, BitVec.getLsbD,
    show 15 - p - 8 = 7 - p by omega]
  simp [show 15 - p < 16 by omega, show ¬ 15 - p < 8 by omega, show 7 - p < 16 by omega]

/-! ## A round of `CRC` -/

theorem split_bytes (acc : BitVec 16) : acc = (acc >>> 8).setWidth 8 ++ acc.setWidth 8 := by
  apply BitVec.eq_of_getLsbD_eq
  intro i hi
  rw [BitVec.getLsbD_append, BitVec.getLsbD_setWidth, BitVec.getLsbD_setWidth, BitVec.getLsbD_ushiftRight]
  by_cases h : i < 8
  · simp [h]
  · simp [h, show i - 8 < 8 by omega, show 8 + (i - 8) = i by omega]

theorem shiftLeft_bytes (acc : BitVec 16) : acc <<< 8 = acc.setWidth 8 ++ 0#8 := by
  apply BitVec.eq_of_getLsbD_eq
  intro i hi
  rw [BitVec.getLsbD_append, BitVec.getLsbD_shiftLeft, BitVec.getLsbD_setWidth]
  by_cases h : i < 8
  · simp [h]
  · simp [h, hi, show i - 8 < 8 by omega]

theorem table_index (acc : BitVec 16) (b : Byte) :
    (acc >>> 8).toNat ^^^ b.toNat = ((acc >>> 8).setWidth 8 ^^^ b).toNat := by
  have h := (acc >>> 8).isLt
  have h8 : (acc >>> 8).toNat < 2 ^ 8 := by
    rw [BitVec.toNat_ushiftRight, Nat.shiftRight_eq_div_pow]; omega
  rw [BitVec.toNat_xor, BitVec.toNat_setWidth, Nat.mod_eq_of_lt h8]

/-- A round of `CRC` is the eight bits of the byte fed into the register. -/
theorem crcRound_eq (g : BitVec 16) (acc : BitVec 16) (b : Byte) :
    crcRound (mkCrctable g) acc b = feeds g (byteBits b) acc 8 := by
  have hm : ∀ c : Byte, message (byteBits c) 8 = poly c := fun c => (poly_eq_message c).symm
  refine residue_poly_inj g ?_
  rw [crcRound, table_index, tableEntry_eq, poly_xor, map_add, residue_feeds, residue_feeds, hm, hm,
    shiftLeft_bytes, poly_append, poly_xor, ← map_add]
  conv => rhs; rw [split_bytes acc, poly_append]
  simp only [poly_zero]
  congr 1
  ring

/-- The loop of `CRC` leaves what the bits of the buffer leave. -/
theorem crcFold_eq (g : BitVec 16) (m : Mem) (n : Nat) :
    crcFold (mkCrctable g) m n = feeds g (bitAt m) 0#16 (8 * n) := by
  induction n with
  | zero => rfl
  | succ n ih =>
    rw [crcFold, load_succ, List.foldl_append, List.foldl_cons, List.foldl_nil, ← crcFold, ih,
      crcRound_eq, Nat.mul_succ, feeds_add]
    apply feeds_congr
    intro p hp
    simp only [bitAt, byteBits, zero_add]
    rw [show (8 * n + p) / 8 = n by omega, show (8 * n + p) % 8 = p by omega]

/-! ## The trailer -/

theorem swap_bytes (acc : BitVec 16) : (acc >>> 8) ||| (acc <<< 8) = acc.setWidth 8 ++ (acc >>> 8).setWidth 8 := by
  apply BitVec.eq_of_getLsbD_eq
  intro i hi
  rw [BitVec.getLsbD_append, BitVec.getLsbD_or, BitVec.getLsbD_shiftLeft, BitVec.getLsbD_setWidth,
    BitVec.getLsbD_setWidth, BitVec.getLsbD_ushiftRight]
  by_cases h : i < 8
  · simp [h]
  · simp [h, hi, show i - 8 < 8 by omega, BitVec.getLsbD_of_ge acc (8 + i) (by omega)]

theorem append_inj {a b c d : Byte} (h : a ++ b = c ++ d) : a = c ∧ b = d := by
  have hb : ∀ i, (a ++ b).getLsbD i = (c ++ d).getLsbD i := fun i => by rw [h]
  simp only [BitVec.getLsbD_append] at hb
  refine ⟨BitVec.eq_of_getLsbD_eq fun i hi => ?_, BitVec.eq_of_getLsbD_eq fun i hi => ?_⟩
  · have := hb (i + 8)
    simpa [show ¬ i + 8 < 8 by omega] using this
  · have := hb i
    simpa [hi] using this

theorem bytes_of_append (a b : Byte) : ((a ++ b) >>> 8).setWidth 8 = a ∧ (a ++ b).setWidth 8 = b :=
  append_inj (split_bytes (a ++ b)).symm

/-- A frame is accepted when its last two bytes are the register, high byte first. -/
theorem checkCrc_iff_register (m : Mem) (n : Nat) :
    checkCrc m (n + 2) = true ↔ crcFold sCrctable m n = m n ++ m (n + 1) := by
  simp only [checkCrc, crc, load16, beq_iff_eq, Int.add_sub_cancel, Int.toNat_natCast, swap_bytes]
  constructor
  · intro h
    obtain ⟨h1, h2⟩ := append_inj h
    conv => lhs; rw [split_bytes (crcFold sCrctable m n)]
    rw [h1, h2]
  · intro h
    rw [split_bytes (crcFold sCrctable m n)] at h
    obtain ⟨h1, h2⟩ := append_inj h
    rw [h1, h2]

/-! ## Frames as lists -/

/-- A list of bytes that `check_CRC` accepts. -/
def frameOk (frame : List Byte) : Bool := checkCrc (memOf frame) frame.length

theorem checkCrc_congr {m m' : Mem} {n : Nat} (h : load m 0 (n + 2) = load m' 0 (n + 2)) :
    checkCrc m (n + 2) = checkCrc m' (n + 2) := by
  have hfold : crcFold sCrctable m n = crcFold sCrctable m' n := by
    have htake := congrArg (List.take n) h
    rw [load_take _ _ (by omega), load_take _ _ (by omega)] at htake
    exact congrArg (List.foldl (crcRound sCrctable) 0#16) htake
  have hn : m n = m' n := by simpa using load_at h (i := n) (by omega)
  have hn1 : m (n + 1) = m' (n + 1) := by simpa using load_at h (i := n + 1) (by omega)
  rw [Bool.eq_iff_iff, checkCrc_iff_register, checkCrc_iff_register, hfold, hn, hn1]

/-- The trailer of a payload: what the loop of `CRC` leaves, high byte first. -/
def trailer (payload : List Byte) : List Byte :=
  let acc := payload.foldl (crcRound sCrctable) 0#16
  [(acc >>> 8).setWidth 8, acc.setWidth 8]

/-- The two bytes behind a payload that `check_CRC` accepts. -/
theorem frameOk_iff (payload : List Byte) (a b : Byte) :
    frameOk (payload ++ [a, b]) = true ↔ [a, b] = trailer payload := by
  have hlen : (payload ++ [a, b]).length = payload.length + 2 := List.length_append
  have hload := load_memOf (payload ++ [a, b])
  rw [hlen, load_add, load_succ, load_succ] at hload
  obtain ⟨hpayload, htrailer⟩ := List.append_inj hload (by rw [length_load])
  simp only [load_zero, List.nil_append, List.cons_append, Int.zero_add, Nat.cast_zero, Int.add_zero, Nat.cast_one,
    List.cons.injEq, and_true] at htrailer
  rw [frameOk, hlen, Nat.cast_add, Nat.cast_ofNat, checkCrc_iff_register, crcFold, hpayload, htrailer.1, htrailer.2,
    trailer]
  constructor
  · intro h
    rw [h, (bytes_of_append a b).1, (bytes_of_append a b).2]
  · intro h
    simp only [List.cons.injEq, and_true] at h
    rw [h.1, h.2]
    exact split_bytes _

/-- `check_CRC` looks at nothing but the frame. -/
theorem checkCrc_load (m : Mem) {size : Nat} (h : 2 ≤ size) : checkCrc m size = frameOk (load m 0 size) := by
  obtain ⟨n, rfl⟩ : ∃ n, size = n + 2 := ⟨size - 2, by omega⟩
  rw [frameOk, length_load]
  refine checkCrc_congr ?_
  have hmem := load_memOf (load m 0 (n + 2))
  rw [length_load] at hmem
  exact hmem.symm

end ComClient.Crc
