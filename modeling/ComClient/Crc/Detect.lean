/-
  ComClient.Crc.Detect — what `check_CRC` accepts, and which corruptions it rejects.

  A frame is a buffer with its size, payload and trailer together; its bits are
  numbered byte by byte, most significant first. `check_crc_iff_divisible`: a frame is
  accepted when the polynomial of its bits is divisible by
  `X ^ 16 + X ^ 12 + X ^ 5 + 1`. A corrupted copy of an accepted frame is therefore
  accepted exactly when the polynomial of the flipped bits is divisible
  (`checkCrc_flipped`), so:
  - `burst_rejected`: flips within 16 consecutive bits are rejected, in particular
    flips within two adjacent bytes.
  - `double_flip_accepted_iff`: two flipped bits are accepted exactly at a distance
    that 32767 divides, so never in a frame of 4095 bytes and possibly from 4096 on.
  - `odd_flips_rejected`: an odd number of flips is rejected.
-/

import ComClient.Crc.Code
import ComClient.Gf2.Detect
import ComClient.Gf2.Period

namespace ComClient.Crc

open Polynomial ComClient.Transport ComClient.Gf2

/-- `m` with the bits of `err` flipped. -/
def corrupt (m err : Mem) : Mem := fun i => m i ^^^ err i

/-- `m` with bit `p` flipped. -/
def flipBit (m : Mem) (p : Nat) : Mem :=
  fun i => if i = (p / 8 : Nat) then m i ^^^ (1#8 <<< (7 - p % 8)) else m i

theorem bitAt_corrupt (m err : Mem) (p : Nat) : bitAt (corrupt m err) p = (bitAt m p ^^ bitAt err p) := by
  simp only [bitAt, corrupt, BitVec.getLsbD_xor]

theorem bitAt_flipBit (m : Mem) (p q : Nat) : bitAt (flipBit m p) q = (bitAt m q ^^ decide (q = p)) := by
  unfold bitAt flipBit
  by_cases h : q / 8 = p / 8
  · rw [if_pos (by omega), BitVec.getLsbD_xor, BitVec.getLsbD_shiftLeft, BitVec.getLsbD_one]
    congr 1
    rw [Bool.eq_iff_iff]
    simp only [Bool.and_eq_true, decide_eq_true_iff, Bool.not_eq_true', decide_eq_false_iff_not]
    omega
  · rw [if_neg (by omega), decide_eq_false (by omega), Bool.xor_false]

/-! ## The generator -/

theorem generator_eq : generator (0x1021#16) = X ^ 16 + X ^ 12 + X ^ 5 + 1 := by
  have hp : poly (0x1021#16) = X ^ 12 + X ^ 5 + 1 := by
    simp [poly, Finset.sum_range_succ, bit]
    ring
  rw [generator, hp]
  ring

theorem generator_eval_one : (generator (0x1021#16)).eval 1 = 0 := by
  rw [generator_eq]
  simp only [eval_add, eval_pow, eval_X, eval_one, one_pow]
  decide

/-- 32767 is 7 · 31 · 151. -/
theorem period_of_powX {w : Nat} {g : BitVec w} (hw : 0 < w) (hone : powX g 15 32767 = 1#w)
    (h7 : powX g 15 (32767 / 7) ≠ 1#w) (h31 : powX g 15 (32767 / 31) ≠ 1#w) (h151 : powX g 15 (32767 / 151) ≠ 1#w) :
    orderOf (residue g X) = 32767 := by
  refine order_of_powX g hw 15 (by omega) (by omega) hone ?_
  intro p hp hd
  rw [show 32767 = 7 * (31 * 151) by rfl, hp.dvd_mul, hp.dvd_mul,
    Nat.prime_dvd_prime_iff_eq hp (by norm_num), Nat.prime_dvd_prime_iff_eq hp (by norm_num),
    Nat.prime_dvd_prime_iff_eq hp (by norm_num)] at hd
  rcases hd with rfl | rfl | rfl
  · exact h7
  · exact h31
  · exact h151

/-- The period of `X`. -/
theorem generator_period : orderOf (residue (0x1021#16) X) = 32767 := by
  apply period_of_powX (by omega) <;> decide +kernel

/-! ## Acceptance -/

theorem checkCrc_iff_dvd (m : Mem) (n : Nat) :
    checkCrc m (n + 2) = true ↔ generator (0x1021#16) ∣ message (bitAt m) (8 * (n + 2)) := by
  have ht : message (fun p => bitAt m (8 * n + p)) 16 = poly (m n ++ m (n + 1)) := by
    rw [poly_eq_message]
    apply message_congr
    intro p hp
    rw [bitAt, BitVec.getLsbD_append]
    by_cases h : p < 8
    · rw [if_neg (by omega), show (8 * n + p) / 8 = n by omega]
      congr 1; omega
    · rw [if_pos (by omega), show (8 * n + p) / 8 = n + 1 by omega]
      congr 1; omega
  rw [checkCrc_iff_register, show 8 * (n + 2) = 8 * n + 16 by omega, message_add, ht, dvd_iff_trailer,
    sCrctable, crcFold_eq]

/-- A frame is accepted exactly when the polynomial of all its bits, payload and
    trailer, is divisible by the generator. -/
theorem check_crc_iff_divisible (buffer : Mem) (size : Int) (hsize : 2 ≤ size) :
    checkCrc buffer size = true ↔
      (X ^ 16 + X ^ 12 + X ^ 5 + 1 : (ZMod 2)[X]) ∣ message (bitAt buffer) (8 * size.toNat) := by
  obtain ⟨n, rfl⟩ : ∃ n : Nat, size = n + 2 := ⟨(size - 2).toNat, by omega⟩
  rw [checkCrc_iff_dvd, generator_eq]
  rfl

theorem digits_frame_divisible :
    (X ^ 16 + X ^ 12 + X ^ 5 + 1 : (ZMod 2)[X]) ∣
      message (bitAt (memOf [49, 50, 51, 52, 53, 54, 55, 56, 57, 0x31, 0xC3])) 88 :=
  (check_crc_iff_divisible (memOf [49, 50, 51, 52, 53, 54, 55, 56, 57, 0x31, 0xC3]) 11 (by decide)).mp
    (by decide +kernel)

/-- A corrupted copy of an accepted frame is accepted exactly when the flipped bits
    are themselves divisible. -/
theorem checkCrc_flipped {m m' : Mem} {size : Int} (hsize : 2 ≤ size) (hok : checkCrc m size = true)
    (e : Nat → Bool) (he : ∀ p < 8 * size.toNat, bitAt m' p = (bitAt m p ^^ e p)) :
    checkCrc m' size = true ↔ generator (0x1021#16) ∣ message e (8 * size.toNat) := by
  obtain ⟨n, rfl⟩ : ∃ n : Nat, size = n + 2 := ⟨(size - 2).toNat, by omega⟩
  have hn : ((n : Int) + 2).toNat = n + 2 := by omega
  rw [hn] at he ⊢
  rw [checkCrc_iff_dvd] at hok ⊢
  rw [message_congr he, message_xor]
  exact (dvd_add_right hok)

/-! ## Bursts -/

theorem bitAt_zero_byte {m : Mem} {p : Nat} (h : m (p / 8 : Nat) = 0#8) : bitAt m p = false := by
  rw [bitAt, h]; exact BitVec.getLsbD_zero

/-- A byte that is not zero has a bit set. -/
theorem bitAt_of_ne_zero {m : Mem} {j : Nat} (h : m j ≠ 0#8) : ∃ p, p / 8 = j ∧ bitAt m p = true := by
  apply Classical.byContradiction
  intro hn
  apply h
  apply BitVec.eq_of_getLsbD_eq
  intro i hi
  have hdiv : (8 * j + (7 - i)) / 8 = j := by omega
  have hmod : 7 - (8 * j + (7 - i)) % 8 = i := by omega
  have hb : bitAt m (8 * j + (7 - i)) = (m j).getLsbD i := by rw [bitAt, hdiv, hmod]
  rw [BitVec.getLsbD_zero, ← hb]
  cases hp : bitAt m (8 * j + (7 - i))
  · rfl
  · exact absurd ⟨_, hdiv, hp⟩ hn

theorem window_rejected {frame err : Mem} {size : Int} (hsize : 2 ≤ size) (hok : checkCrc frame size = true)
    (k : Nat) (hne : ∃ p < 8 * size.toNat, bitAt err p = true)
    (hin : ∀ p < 8 * size.toNat, bitAt err p = true → k ≤ p ∧ p < k + 16) :
    checkCrc (corrupt frame err) size = false := by
  rw [Bool.eq_false_iff]
  intro h
  rw [checkCrc_flipped hsize hok (bitAt err) fun p _ => bitAt_corrupt frame err p] at h
  exact burst_not_dvd _ (by omega) rfl hne hin h

/-- Flips that fit in a window of 16 consecutive bits of an accepted frame are
    rejected; in particular flips confined to one byte or to two adjacent bytes. -/
theorem burst_rejected (frame : Mem) (size : Int) (hsize : 2 ≤ size) (hok : checkCrc frame size = true) :
    (∀ (err : Mem) (k : Nat), (∃ p < 8 * size.toNat, bitAt err p = true) →
      (∀ p < 8 * size.toNat, bitAt err p = true → k ≤ p ∧ p < k + 16) →
      checkCrc (corrupt frame err) size = false) ∧
    (∀ (err : Mem) (i : Nat), (∃ j < size.toNat, err j ≠ 0#8) →
      (∀ j < size.toNat, err j ≠ 0#8 → j = i ∨ j = i + 1) →
      checkCrc (corrupt frame err) size = false) := by
  refine ⟨fun err k hne hin => window_rejected hsize hok k hne hin, fun err i hne hin => ?_⟩
  -- two adjacent bytes are the window that starts at the first one's top bit
  refine window_rejected hsize hok (8 * i) ?_ fun p hp hb => ?_
  · obtain ⟨j, hj, hz⟩ := hne
    obtain ⟨p, hpj, hb⟩ := bitAt_of_ne_zero hz
    exact ⟨p, by omega, hb⟩
  · have hz : err (p / 8 : Nat) ≠ 0#8 := fun hz => by
      rw [bitAt_zero_byte hz] at hb; cases hb
    have := hin (p / 8) (by omega) hz
    omega

theorem burst_rejected_two_zeros :
    checkCrc (corrupt (memOf [0, 0]) (memOf [0, 1])) 2 = false :=
  (burst_rejected (memOf [0, 0]) 2 (by decide) (by decide +kernel)).1 (memOf [0, 1]) 8
    ⟨15, by decide, by decide⟩ (by decide)

/-! ## Two flips -/

theorem double_flip_iff {frame : Mem} {size : Int} (hsize : 2 ≤ size) (hok : checkCrc frame size = true)
    {i j : Nat} (hij : i < j) (hj : j < 8 * size.toNat) :
    checkCrc (flipBit (flipBit frame i) j) size = true ↔ 32767 ∣ j - i := by
  let e : Nat → Bool := fun p => decide (p = i ∨ p = j)
  have he : ∀ p < 8 * size.toNat, bitAt (flipBit (flipBit frame i) j) p = (bitAt frame p ^^ e p) := by
    intro p _
    rw [bitAt_flipBit, bitAt_flipBit, Bool.xor_assoc]
    congr 1
    by_cases h1 : p = i <;> by_cases h2 : p = j <;> simp [e, h1, h2] <;> omega
  rw [checkCrc_flipped hsize hok e he,
    double_dvd_iff _ (by omega) rfl hij hj fun p _ => decide_eq_true_iff, dvd_X_pow_add_one_iff,
    generator_period]

/-- Flipping bits `i < j` of an accepted frame leaves it accepted exactly when 32767
    divides `j - i`: never in a frame of at most 4095 bytes, for some pair in every
    frame of 4096 bytes or more. -/
theorem double_flip_accepted_iff (frame : Mem) (size : Int) (hsize : 2 ≤ size) (hok : checkCrc frame size = true) :
    (∀ i j, i < j → j < 8 * size.toNat →
      (checkCrc (flipBit (flipBit frame i) j) size = true ↔ 32767 ∣ j - i)) ∧
    (size ≤ 4095 → ∀ i j, i < j → j < 8 * size.toNat →
      checkCrc (flipBit (flipBit frame i) j) size = false) ∧
    (4096 ≤ size → ∃ i j, i < j ∧ j < 8 * size.toNat ∧
      checkCrc (flipBit (flipBit frame i) j) size = true) := by
  refine ⟨fun i j hij hj => double_flip_iff hsize hok hij hj, fun hs i j hij hj => ?_, fun hs => ?_⟩
  · rw [Bool.eq_false_iff]
    intro h
    obtain ⟨q, hq⟩ := (double_flip_iff hsize hok hij hj).mp h
    omega
  · exact ⟨0, 32767, by omega, by omega,
      (double_flip_iff hsize hok (by omega) (by omega)).mpr (by simp)⟩

theorem double_flip_two_zeros : checkCrc (flipBit (flipBit (memOf [0, 0]) 3) 12) 2 = false :=
  (double_flip_accepted_iff (memOf [0, 0]) 2 (by decide) (by decide +kernel)).2.1 (by decide) 3 12
    (by decide) (by decide)

/-! ## An odd number of flips -/

/-- An error pattern of odd weight turns an accepted frame into a rejected one. -/
theorem odd_flips_rejected (frame err : Mem) (size : Int) (hsize : 2 ≤ size) (hok : checkCrc frame size = true)
    (hodd : Odd ((Finset.range (8 * size.toNat)).filter fun p => bitAt err p = true).card) :
    checkCrc (corrupt frame err) size = false := by
  rw [Bool.eq_false_iff]
  intro h
  rw [checkCrc_flipped hsize hok (bitAt err) fun p _ => bitAt_corrupt frame err p] at h
  exact odd_not_dvd _ generator_eval_one hodd h

theorem odd_flips_two_zeros : checkCrc (corrupt (memOf [0, 0]) (memOf [128, 1 + 64])) 2 = false :=
  odd_flips_rejected (memOf [0, 0]) (memOf [128, 1 + 64]) 2 (by decide) (by decide +kernel) (by decide)

end ComClient.Crc
