/-
  ComClient.Crc.Transpose — exchanging two bytes of an accepted frame.

  The exchange flips at both places the bits in which the two bytes differ, so the error
  is the difference times `X ^ (8 d) + 1`, with `d` the distance (`message_twice`). The
  generator is `X + 1` times a primitive factor of degree 15 (`generator_factor`). That
  factor has nothing in common with the difference of two bytes, so it has to divide
  `X ^ (8 d) + 1`, which it does for the multiples `d` of 32767 alone.
-/

import ComClient.Crc.Detect
import ComClient.Gf2.Primitive

namespace ComClient.Crc

open Polynomial ComClient.Transport ComClient.Gf2

/-- `m` with the bytes at `p` and `q` exchanged. -/
def exchange (m : Mem) (p q : Nat) : Mem := fun i => if i = p then m q else if i = q then m p else m i

/-- The byte `d` at `p` and at `q`. -/
def twice (d : Byte) (p q : Nat) : Mem := fun i => if i = p ∨ i = q then d else 0

theorem exchange_eq (m : Mem) (p q : Nat) : exchange m p q = corrupt m (twice (m p ^^^ m q) p q) := by
  funext i
  unfold exchange corrupt twice
  by_cases hp : i = p
  · rw [if_pos hp, if_pos (Or.inl hp), hp, ← BitVec.xor_assoc, BitVec.xor_self, BitVec.zero_xor]
  · by_cases hq : i = q
    · rw [if_neg hp, if_pos hq, if_pos (Or.inr hq), hq, BitVec.xor_comm (m p), ← BitVec.xor_assoc, BitVec.xor_self,
        BitVec.zero_xor]
    · rw [if_neg hp, if_neg hq, if_neg (by simp [hp, hq])]
      exact (BitVec.xor_zero).symm

/-! ## The error as a polynomial -/

theorem message_byte (m : Mem) (k : Nat) :
    message (bitAt m) (8 * (k + 1)) = X ^ 8 * message (bitAt m) (8 * k) + poly (m k) := by
  have hlast : message (fun i => bitAt m (8 * k + i)) 8 = poly (m k) := by
    rw [poly_eq_message]
    apply message_congr
    intro i hi
    rw [bitAt, show (8 * k + i) / 8 = k by omega, show (8 * k + i) % 8 = i by omega]
  rw [Nat.mul_succ, message_add, hlast]

/-- Zero bytes at the end only add a power of `X`. -/
theorem message_zeros {m : Mem} {j k : Nat} (hjk : j ≤ k) (h : ∀ i, j ≤ i → i < k → m i = 0) :
    message (bitAt m) (8 * k) = X ^ (8 * (k - j)) * message (bitAt m) (8 * j) := by
  rw [Nat.mul_sub]
  refine message_cut (by omega) ?_
  intro p hp hpk
  exact bitAt_zero_byte (h (p / 8) (by omega) (by omega))

theorem message_twice (d : Byte) {p q n : Nat} (hpq : p < q) (hq : q < n) :
    message (bitAt (twice d p q)) (8 * n) = X ^ (8 * (n - (q + 1))) * (poly d * (X ^ (8 * (q - p)) + 1)) := by
  have hat : ∀ i : Nat, twice d p q i = if i = p ∨ i = q then d else 0 := by
    intro i
    simp only [twice, Nat.cast_inj]
  have hend : message (bitAt (twice d p q)) (8 * n) =
      X ^ (8 * (n - (q + 1))) * message (bitAt (twice d p q)) (8 * (q + 1)) := by
    refine message_zeros (by omega) ?_
    intro i hi _
    rw [hat, if_neg (by omega)]
  have hbetween : message (bitAt (twice d p q)) (8 * q) =
      X ^ (8 * (q - (p + 1))) * message (bitAt (twice d p q)) (8 * (p + 1)) := by
    refine message_zeros (by omega) ?_
    intro i hi _
    rw [hat, if_neg (by omega)]
  have hfront : message (bitAt (twice d p q)) (8 * p) = X ^ (8 * (p - 0)) * message (bitAt (twice d p q)) (8 * 0) := by
    refine message_zeros (by omega) ?_
    intro i _ hi
    rw [hat, if_neg (by omega)]
  rw [hend, message_byte, hbetween, message_byte, hfront, hat p, hat q, if_pos (Or.inl rfl), if_pos (Or.inr rfl),
    message_zero, mul_zero, mul_zero, zero_add, show 8 * (q - p) = 8 + 8 * (q - (p + 1)) by omega, pow_add]
  ring

/-! ## The factor of degree 15 -/

theorem generator_factor : generator (0x1021#16) = (X + 1) * generator (0x701F#15) := by
  have hp : poly (0x701F#15) = X ^ 14 + X ^ 13 + X ^ 12 + X ^ 4 + X ^ 3 + X ^ 2 + X + 1 := by
    simp [poly, Finset.sum_range_succ, bit]
    ring
  have h2 : (2 : (ZMod 2)[X]) = 0 := CharTwo.two_eq_zero
  rw [generator_eq, generator, hp]
  linear_combination -(X ^ 15 + X ^ 14 + X ^ 13 + X ^ 4 + X ^ 3 + X ^ 2 + X) * h2

/-- Modulo the factor, the powers of `X` are everything but zero. -/
theorem factor_period : orderOf (residue (0x701F#15) X) = 32767 := by
  apply period_of_powX (by omega) <;> decide +kernel

theorem poly_setWidth {v w : Nat} (h : v ≤ w) (d : BitVec v) : poly (d.setWidth w) = poly d := by
  ext i
  rw [coeff_poly, coeff_poly, BitVec.getLsbD_setWidth]
  by_cases hi : i < w
  · rw [decide_eq_true hi, Bool.true_and]
  · rw [decide_eq_false hi, Bool.false_and, BitVec.getLsbD_of_ge d i (by omega)]

theorem setWidth_ne_zero {v w : Nat} (h : v ≤ w) {d : BitVec v} (hd : d ≠ 0#v) : d.setWidth w ≠ 0#w := by
  intro h0
  refine hd (poly_inj ?_)
  rw [← poly_setWidth h, h0, poly_zero, poly_zero]

/-- A byte but zero, repeated at a distance of `n` bytes. -/
theorem dvd_twice_iff {d : Byte} (hd : d ≠ 0#8) (n : Nat) :
    generator (0x1021#16) ∣ poly d * (X ^ (8 * n) + 1) ↔ 32767 ∣ n := by
  have hcoprime : Nat.Coprime 32767 8 := by decide
  constructor
  · intro h
    have hfactor : generator (0x701F#15) ∣ poly d * (X ^ (8 * n) + 1) :=
      (Dvd.intro_left (X + 1) generator_factor.symm).trans h
    rw [← poly_setWidth (w := 15) (by omega) d,
      dvd_poly_mul_iff _ (by omega) factor_period (setWidth_ne_zero (by omega) hd), dvd_X_pow_add_one_iff,
      factor_period] at hfactor
    exact hcoprime.dvd_of_dvd_mul_left hfactor
  · intro h
    refine Dvd.dvd.mul_left ?_ _
    rw [dvd_X_pow_add_one_iff, generator_period]
    exact Dvd.dvd.mul_left h 8

/-- Exchanging two different bytes of an accepted frame leaves it accepted exactly when
    their distance is a multiple of 32767. -/
theorem transposition_accepted_iff (frame : Mem) (size : Int) (hsize : 2 ≤ size) (hok : checkCrc frame size = true)
    (p q : Nat) (hpq : p < q) (hq : q < size.toNat) (hne : frame p ≠ frame q) :
    checkCrc (exchange frame p q) size = true ↔ 32767 ∣ q - p := by
  have hd : frame p ^^^ frame q ≠ 0#8 := by
    intro h0
    exact hne (BitVec.xor_eq_zero_iff.mp h0)
  rw [exchange_eq, checkCrc_flipped hsize hok (bitAt (twice (frame p ^^^ frame q) p q)) fun i _ => bitAt_corrupt _ _ i,
    message_twice _ hpq hq, dvd_X_pow_mul _ (by omega) rfl, dvd_twice_iff hd]

theorem transposition_of_digits :
    checkCrc (exchange (memOf [49, 50, 51, 52, 53, 54, 55, 56, 57, 0x31, 0xC3]) 8 10) 11 = true ↔ 32767 ∣ 10 - 8 :=
  transposition_accepted_iff (memOf [49, 50, 51, 52, 53, 54, 55, 56, 57, 0x31, 0xC3]) 11 (by decide) (by decide +kernel)
    8 10 (by decide) (by decide) (by decide)

end ComClient.Crc
