/-
  ComClient.Crc.Limits — what `check_CRC` cannot see.

  The check asks whether a polynomial is divisible, so it does not know where a frame
  begins or ends, and among the values of any two adjacent bytes it accepts one:
  - `spliced_frames_iff`: whole frames before or behind a part leave the verdict to the
    part (`bits_append`). So a checked read that takes several frames at once returns them
    as one (`misframed_read`).
  - `one_pair_accepted`: whatever the other bytes are, exactly one of the 65536 values of
    two adjacent bytes is accepted. So two bytes lost at a known place are not lost.
  - `burst_of_17_accepted_iff`: of the errors within 17 consecutive bits one kind passes,
    the bits of the generator.
-/

import ComClient.Crc.Detect
import ComClient.Gf2.Window
import ComClient.Transport.Frames

namespace ComClient.Crc

open Polynomial ComClient.Transport ComClient.Gf2

/-! ## Frames side by side -/

/-- The polynomial of the bits of a list of bytes. -/
noncomputable def bits (bytes : List Byte) : (ZMod 2)[X] := message (bitAt (memOf bytes)) (8 * bytes.length)

theorem memOf_nat (bytes : List Byte) (i : Nat) : memOf bytes i = bytes.getD i 0 := by
  by_cases hi : i < bytes.length
  · rw [memOf, store_in _ _ _ (by omega) (by omega), show ((i : Int) - 0).toNat = i by omega]
  · rw [memOf, store_out _ _ _ (Or.inr (by omega)), List.getD_eq_default _ _ (by omega)]

theorem bits_append (a b : List Byte) : bits (a ++ b) = X ^ (8 * b.length) * bits a + bits b := by
  have hfront : ∀ p < 8 * a.length, bitAt (memOf (a ++ b)) p = bitAt (memOf a) p := by
    intro p hp
    rw [bitAt, bitAt, memOf_nat, memOf_nat, List.getD_append _ _ _ _ (by omega)]
  have hback : ∀ p < 8 * b.length, bitAt (memOf (a ++ b)) (8 * a.length + p) = bitAt (memOf b) p := by
    intro p _
    rw [bitAt, bitAt, memOf_nat, memOf_nat, List.getD_append_right _ _ _ _ (by omega),
      show (8 * a.length + p) / 8 - a.length = p / 8 by omega, show (8 * a.length + p) % 8 = p % 8 by omega]
  rw [bits, List.length_append, Nat.mul_add, message_add, message_congr hfront, message_congr hback]
  rfl

theorem frameOk_iff_dvd {frame : List Byte} (h : 2 ≤ frame.length) :
    frameOk frame = true ↔ generator (0x1021#16) ∣ bits frame := by
  obtain ⟨n, hn⟩ : ∃ n, frame.length = n + 2 := ⟨frame.length - 2, by omega⟩
  rw [frameOk, bits, hn, Nat.cast_add, Nat.cast_ofNat, checkCrc_iff_dvd]

theorem dvd_bits_flatten {fs : List (List Byte)} (hfs : ∀ f ∈ fs, 2 ≤ f.length ∧ frameOk f = true) :
    generator (0x1021#16) ∣ bits fs.flatten := by
  induction fs with
  | nil => exact dvd_zero _
  | cons f fs ih =>
    obtain ⟨⟨h2, hok⟩, hrest⟩ := List.forall_mem_cons.mp hfs
    rw [List.flatten_cons, bits_append]
    exact dvd_add (Dvd.dvd.mul_left ((frameOk_iff_dvd h2).mp hok) _) (ih hrest)

/-- Whole frames before a part, or behind it, are accepted with it exactly when the part is
    accepted on its own. -/
theorem spliced_frames_iff {fs : List (List Byte)} (hfs : ∀ f ∈ fs, 2 ≤ f.length ∧ frameOk f = true) {part : List Byte}
    (hpart : 2 ≤ part.length) :
    frameOk (fs.flatten ++ part) = frameOk part ∧ frameOk (part ++ fs.flatten) = frameOk part := by
  have hd := dvd_bits_flatten hfs
  constructor
  · rw [Bool.eq_iff_iff, frameOk_iff_dvd (by rw [List.length_append]; omega), frameOk_iff_dvd hpart, bits_append]
    exact dvd_add_right (Dvd.dvd.mul_left hd _)
  · rw [Bool.eq_iff_iff, frameOk_iff_dvd (by rw [List.length_append]; omega), frameOk_iff_dvd hpart, bits_append,
      dvd_add_left hd, dvd_X_pow_mul _ (by omega) rfl]

/-- Over either stream, a checked read of whole frames and a part before or behind them takes
    them all, and returns their size or -1 as a read of the part alone would. -/
theorem misframed_read (t : StreamClient) {c : Client} (hc : c.isConnected = true) (size : SizeT) (h31 : size.val < 2 ^ 31)
    {fs : List (List Byte)} (hfs : ∀ f ∈ fs, 2 ≤ f.length ∧ frameOk f = true) {part bytes : List Byte}
    (hpart : 2 ≤ part.length) (hbytes : bytes = fs.flatten ++ part ∨ bytes = part ++ fs.flatten)
    (hlen : bytes.length = size.val) (into : Mem) (more : List Byte) {f : Nat → Answer} (hf : Steady t f) :
    ∃ u, ∀ es, (t.readS c into size true true (bytes ++ more) (firsts f u ++ es)).status =
        .returned (if frameOk part then (size.val : Int) else -1) ∧
      (t.readS c into size true true (bytes ++ more) (firsts f u ++ es)).buf = store into 0 bytes ∧
      (t.readS c into size true true (bytes ++ more) (firsts f u ++ es)).kernel = more := by
  obtain ⟨hbehind, hbefore⟩ := spliced_frames_iff hfs hpart
  have hverdict : frameOk bytes = frameOk part := by
    rcases hbytes with rfl | rfl
    · exact hbehind
    · exact hbefore
  have h2 : 2 ≤ size.val := by
    rw [← hlen]
    rcases hbytes with rfl | rfl
    · rw [List.length_append]
      omega
    · rw [List.length_append]
      omega
  obtain ⟨u, hu⟩ := read_frame hc size h2 h31 hlen into more hf
  refine ⟨u, fun es => ?_⟩
  obtain ⟨⟨hstatus, hbuf, hkernel⟩, -⟩ := hu es
  refine ⟨?_, hbuf, hkernel⟩
  rw [hstatus, hverdict, hlen]

/-- Two frames, read as one of six bytes. -/
theorem misframed_read_of_two_frames :
    ∃ u, ∀ es, (StreamClient.tcp.readS someClient (fun _ => 0) (toSizeT 6) true true
      ([1, 0x10, 0x21, 2, 0x20, 0x42] ++ []) (firsts (fun _ => .upto 1) u ++ es)).status = .returned 6 := by
  have hfs : ∀ f ∈ ([[1, 0x10, 0x21]] : List (List Byte)), 2 ≤ f.length ∧ frameOk f = true := by decide +kernel
  have hpart : 2 ≤ ([2, 0x20, 0x42] : List Byte).length := by decide
  have hsteady : Steady .tcp fun _ => .upto 1 := fun _ => ⟨1, by decide, rfl⟩
  obtain ⟨u, hu⟩ := misframed_read .tcp (c := someClient) rfl (toSizeT 6) (by decide) hfs hpart (Or.inl rfl) rfl
    (fun _ => 0) [] hsteady
  have hok : frameOk [2, 0x20, 0x42] = true := by decide +kernel
  refine ⟨u, fun es => ?_⟩
  have hstatus := (hu es).1
  rw [hok, if_pos rfl] at hstatus
  exact hstatus

/-! ## Two bytes -/

theorem bitAt_store_pair (m : Mem) (i : Nat) (x y : Byte) (p : Nat) :
    bitAt (store m i [x, y]) p = overwrite (bitAt m) (8 * i) (x ++ y) p := by
  unfold overwrite
  split
  · rename_i h
    rw [BitVec.getLsbD_append, bitAt, store_in _ _ _ (by omega) (by simp only [List.length_cons, List.length_nil]; omega)]
    by_cases hfirst : p / 8 = i
    · rw [hfirst, show ((i : Int) - i).toNat = 0 by omega, if_neg (by omega)]
      exact congrArg x.getLsbD (by omega)
    · rw [show ((p / 8 : Nat) - (i : Int)).toNat = 1 by omega, if_pos (by omega)]
      exact congrArg y.getLsbD (by omega)
  · rw [bitAt, bitAt, store_out _ _ _ (by simp only [List.length_cons, List.length_nil]; omega)]

/-- Whatever the other bytes are, the check accepts one value of two adjacent ones and rejects
    the 65535 others. -/
theorem one_pair_accepted (buffer : Mem) (size : Int) (i : Nat) (hi : (i : Int) + 2 ≤ size) :
    ∃! b : Byte × Byte, checkCrc (store buffer i [b.1, b.2]) size = true := by
  obtain ⟨n, rfl⟩ : ∃ n : Nat, size = n + 2 := ⟨(size - 2).toNat, by omega⟩
  have hiff : ∀ x y : Byte, checkCrc (store buffer i [x, y]) (n + 2) = true ↔
      generator (0x1021#16) ∣ message (overwrite (bitAt buffer) (8 * i) (x ++ y)) (8 * (n + 2)) := by
    intro x y
    rw [checkCrc_iff_dvd, message_congr fun p _ => bitAt_store_pair buffer i x y p]
  obtain ⟨v, hv, hunique⟩ := exists_unique_window (0x1021#16) (by omega) rfl (bitAt buffer) (n := 8 * (n + 2))
    (k := 8 * i) (by omega)
  refine ⟨((v >>> 8).setWidth 8, v.setWidth 8), ?_, ?_⟩
  · refine (hiff _ _).mpr ?_
    rw [← split_bytes]
    exact hv
  · rintro ⟨x, y⟩ hxy
    have heq := hunique (x ++ y) ((hiff x y).mp hxy)
    rw [← heq, (bytes_of_append x y).1, (bytes_of_append x y).2]

/-- The first two bytes of a frame are lost; only what was there fits the rest. -/
theorem one_pair_of_digits :
    ∃! b : Byte × Byte,
      checkCrc (store (memOf [0, 0, 51, 52, 53, 54, 55, 56, 57, 0x31, 0xC3]) (0 : Nat) [b.1, b.2]) 11 = true :=
  one_pair_accepted (memOf [0, 0, 51, 52, 53, 54, 55, 56, 57, 0x31, 0xC3]) 11 0 (by decide)

/-! ## Seventeen bits -/

theorem generatorBit_iff {j : Nat} (hj : j < 17) :
    generatorBit (0x1021#16) j = true ↔ j = 0 ∨ j = 4 ∨ j = 11 ∨ j = 16 := by decide +revert

/-- An error within 17 consecutive bits of an accepted frame is accepted if and only if it
    flips the first, the fifth, the twelfth and the last of them. -/
theorem burst_of_17_accepted_iff (frame err : Mem) (size : Int) (hsize : 2 ≤ size) (hok : checkCrc frame size = true)
    (k : Nat) (hk : k + 16 < 8 * size.toNat) (hne : ∃ p < 8 * size.toNat, bitAt err p = true)
    (hin : ∀ p < 8 * size.toNat, bitAt err p = true → k ≤ p ∧ p ≤ k + 16) :
    checkCrc (corrupt frame err) size = true ↔
      ∀ p < 8 * size.toNat, bitAt err p = true ↔ p = k ∨ p = k + 4 ∨ p = k + 11 ∨ p = k + 16 := by
  rw [checkCrc_flipped hsize hok (bitAt err) fun p _ => bitAt_corrupt frame err p,
    wide_burst_dvd_iff _ (by omega) rfl hk hne hin]
  constructor
  · intro hall p hp
    constructor
    · intro hbit
      have hwin := hin p hp hbit
      have hj := hall (p - k) (by omega)
      rw [show k + (p - k) = p by omega, hbit] at hj
      have hoff := (generatorBit_iff (by omega)).mp hj.symm
      omega
    · intro hoff
      have hj := hall (p - k) (by omega)
      rw [show k + (p - k) = p by omega] at hj
      rw [hj, generatorBit_iff (by omega)]
      omega
  · intro hall j hj
    rw [Bool.eq_iff_iff, hall (k + j) (by omega), generatorBit_iff hj]
    omega

/-- The generator itself, in a frame of three zeros. -/
theorem burst_of_17_in_three_zeros :
    checkCrc (corrupt (memOf [0, 0, 0]) (memOf [0x88, 0x10, 0x80])) 3 = true :=
  (burst_of_17_accepted_iff (memOf [0, 0, 0]) (memOf [0x88, 0x10, 0x80]) 3 (by decide) (by decide +kernel) 0 (by decide)
    ⟨0, by decide, by decide⟩ (by decide)).mpr (by decide)

end ComClient.Crc
