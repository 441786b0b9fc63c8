/-
  ComClient.Gf2.Primitive — generators modulo which the powers of `X` are everything.

  When the order of `X` is `2 ^ w - 1`, the words of its powers are all the words but
  zero, for there are as many of them (`exists_pow_of_primitive`). So every word but
  zero is a unit modulo the generator (`dvd_poly_mul_iff`): the generator shares no
  factor with a polynomial of smaller degree.
-/

import ComClient.Gf2.Period

namespace ComClient.Gf2

open Polynomial

variable {w : Nat} (g : BitVec w)

theorem residue_one_ne_zero (hw : 0 < w) : residue g 1 ≠ 0 := by
  intro h
  rw [← poly_one hw] at h
  have h01 : (1#w).toNat = (0#w).toNat := congrArg BitVec.toNat (eq_zero_of_residue g h)
  rw [BitVec.toNat_ofNat, BitVec.toNat_ofNat, Nat.mod_eq_of_lt (Nat.one_lt_two_pow hw.ne'), Nat.zero_mod] at h01
  exact Nat.one_ne_zero h01

theorem pow_ne_zero_of_order (hw : 0 < w) (hord : 0 < orderOf (residue g X)) (k : Nat) : residue g X ^ k ≠ 0 := by
  intro h
  have hone : residue g X ^ (k * orderOf (residue g X)) = 1 := by
    rw [mul_comm, pow_mul, pow_orderOf_eq_one, one_pow]
  rw [pow_mul, h, zero_pow hord.ne', ← map_one (residue g)] at hone
  exact residue_one_ne_zero g hw hone.symm

theorem powX_ne_zero (hw : 0 < w) (hord : 0 < orderOf (residue g X)) {k : Nat} (hk : k < 2 ^ w) :
    powX g w k ≠ 0#w := by
  intro h
  have hres := residue_powX g hw w k hk
  rw [h, poly_zero, map_zero] at hres
  exact pow_ne_zero_of_order g hw hord k hres.symm

/-- Every word but zero is a power of `X`. -/
theorem exists_pow_of_primitive (hw : 0 < w) (hord : orderOf (residue g X) = 2 ^ w - 1) {v : BitVec w} (hv : v ≠ 0#w) :
    ∃ k, residue g (poly v) = residue g X ^ k := by
  have htwo : 1 < 2 ^ w := Nat.one_lt_two_pow hw.ne'
  have hpos : 0 < orderOf (residue g X) := by omega
  have hwords : (Finset.range (2 ^ w - 1)).image (fun k => (powX g w k).toNat) = Finset.Ioo 0 (2 ^ w) := by
    refine Finset.eq_of_subset_of_card_le ?_ ?_
    · intro x hx
      obtain ⟨k, hk, rfl⟩ := Finset.mem_image.mp hx
      rw [Finset.mem_range] at hk
      refine Finset.mem_Ioo.mpr ⟨Nat.pos_of_ne_zero ?_, (powX g w k).isLt⟩
      intro h0
      exact powX_ne_zero g hw hpos (k := k) (by omega) (BitVec.eq_of_toNat_eq (by simpa using h0))
    · rw [Finset.card_image_of_injOn, Finset.card_range, Nat.card_Ioo]
      · omega
      · intro a ha b hb hab
        rw [Finset.mem_coe, Finset.mem_range] at ha hb
        have hpow : residue g X ^ a = residue g X ^ b := by
          rw [← residue_powX g hw w a (by omega), ← residue_powX g hw w b (by omega), BitVec.eq_of_toNat_eq hab]
        exact pow_injOn_Iio_orderOf (Set.mem_Iio.mpr (by omega)) (Set.mem_Iio.mpr (by omega)) hpow
  have hmem : v.toNat ∈ Finset.Ioo 0 (2 ^ w) := by
    refine Finset.mem_Ioo.mpr ⟨Nat.pos_of_ne_zero ?_, v.isLt⟩
    intro h0
    exact hv (BitVec.eq_of_toNat_eq (by simpa using h0))
  rw [← hwords] at hmem
  obtain ⟨k, hk, hkv⟩ := Finset.mem_image.mp hmem
  rw [Finset.mem_range] at hk
  refine ⟨k, ?_⟩
  rw [← residue_powX g hw w k (by omega), BitVec.eq_of_toNat_eq hkv]

/-- A word but zero has no factor in common with the generator. -/
theorem dvd_poly_mul_iff (hw : 0 < w) (hord : orderOf (residue g X) = 2 ^ w - 1) {v : BitVec w} (hv : v ≠ 0#w)
    (p : (ZMod 2)[X]) : generator g ∣ poly v * p ↔ generator g ∣ p := by
  obtain ⟨k, hk⟩ := exists_pow_of_primitive g hw hord hv
  have htwo : 1 < 2 ^ w := Nat.one_lt_two_pow hw.ne'
  have hunit : IsUnit (residue g X) := (isOfFinOrder_iff_pow_eq_one.mpr ⟨_, by omega, hord ▸ pow_orderOf_eq_one _⟩).isUnit
  rw [← residue_eq_zero, ← residue_eq_zero, map_mul, hk]
  exact (hunit.pow k).mul_right_eq_zero

end ComClient.Gf2
