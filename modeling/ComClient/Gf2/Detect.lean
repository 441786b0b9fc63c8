/-
  ComClient.Gf2.Detect — which error patterns a generator lets through.

  An error pattern `e` over `n` positions is undetected when the generator divides
  `message e n`. A generator with a constant term divides no power of `X`
  (`dvd_X_pow_mul`), so only the shape of the pattern counts, not where it ends:
  - `burst_not_dvd`: a pattern that is not empty and fits a window of `w` positions
    is never divisible.
  - `double_dvd_iff`: two positions are divisible exactly when the generator divides
    `X ^ d + 1`, `d` their distance.
  - `odd_not_dvd`: when the generator vanishes at 1, no pattern of odd weight is
    divisible.
-/

import ComClient.Gf2.Register

namespace ComClient.Gf2

open Polynomial

variable {w : Nat} (g : BitVec w)

/-! ## Trailing zeros -/

theorem coeff_zero_generator (hw : 0 < w) : (generator g).coeff 0 = bit (g.getLsbD 0) := by
  rw [generator, coeff_add, coeff_X_pow, if_neg (by omega), zero_add, coeff_poly]

/-- A generator with a constant term has no factor in common with a power of `X`. -/
theorem dvd_X_pow_mul (hw : 0 < w) (hg : g.getLsbD 0 = true) (k : Nat) (p : (ZMod 2)[X]) :
    generator g ∣ X ^ k * p ↔ generator g ∣ p := by
  have hX : ¬ X ∣ generator g := by
    rw [X_dvd_iff, coeff_zero_generator g hw, hg]
    decide
  have hc : IsCoprime (generator g) (X ^ k) :=
    ((irreducible_X.coprime_iff_not_dvd.mpr hX).pow_left).symm
  exact ⟨hc.dvd_of_dvd_mul_left, fun h => Dvd.dvd.mul_left h _⟩

/-- Positions past the last one set only add a power of `X`. -/
theorem message_cut {f : Nat → Bool} {n e : Nat} (he : e ≤ n) (h : ∀ p, e ≤ p → p < n → f p = false) :
    message f n = X ^ (n - e) * message f e := by
  have hz : message (fun p => f (e + p)) (n - e) = 0 :=
    message_of_zero fun p hp => h (e + p) (by omega) (by omega)
  conv => lhs; rw [show n = e + (n - e) by omega, message_add, hz, add_zero]

/-- Positions before the first one set do not count. -/
theorem message_skip {f : Nat → Bool} {n k : Nat} (hk : k ≤ n) (h : ∀ p < k, f p = false) :
    message f n = message (fun p => f (k + p)) (n - k) := by
  conv => lhs; rw [show n = k + (n - k) by omega, message_add, message_of_zero h, mul_zero, zero_add]

/-! ## Bursts -/

theorem burst_not_dvd (hw : 0 < w) (hg : g.getLsbD 0 = true) {e : Nat → Bool} {n k : Nat}
    (hne : ∃ p < n, e p = true) (hin : ∀ p < n, e p = true → k ≤ p ∧ p < k + w) :
    ¬ generator g ∣ message e n := by
  obtain ⟨p, hp, hep⟩ := hne
  have hwin := hin p hp hep
  -- `stop` is where the window or the frame ends
  let stop := min (k + w) n
  have hcut : message e n = X ^ (n - stop) * message e stop := by
    refine message_cut (by omega) fun q hq hqn => ?_
    cases h : e q
    · rfl
    · have := hin q hqn h; omega
  have hskip : message e stop = message (fun q => e (k + q)) (stop - k) := by
    refine message_skip (by omega) fun q hq => ?_
    cases h : e q
    · rfl
    · have := hin q (by omega) h; omega
  rw [hcut, dvd_X_pow_mul g hw hg, hskip]
  intro hd
  refine message_ne_zero (f := fun q => e (k + q)) (p := p - k) (by omega) ?_
    (eq_zero_of_dvd_of_degree_lt hd ?_)
  · rw [show k + (p - k) = p by omega]; exact hep
  · rw [degree_generator]
    refine lt_of_lt_of_le (degree_message_lt _ _) ?_
    exact_mod_cast (show stop - k ≤ w by omega)

/-! ## Two positions -/

/-- The pattern of two positions. -/
theorem message_pair {e : Nat → Bool} {n i j : Nat} (hij : i < j) (hjn : j < n)
    (he : ∀ p < n, e p = true ↔ p = i ∨ p = j) :
    message e n = X ^ (n - 1 - j) * (X ^ (j - i) + 1) := by
  have hval : ∀ p < n, e p = decide (p = i ∨ p = j) := fun p hp => by
    rw [Bool.eq_iff_iff, he p hp, decide_eq_true_iff]
  have hcut : message e n = X ^ (n - (j + 1)) * message e (j + 1) :=
    message_cut (by omega) fun p hp hpn => by rw [hval p hpn]; simp; omega
  have hskip : message e j = message (fun p => e (i + p)) (j - i) :=
    message_skip (by omega) fun p hp => by rw [hval p (by omega)]; simp; omega
  have hlead : message (fun p => e (i + p)) (j - i) = X ^ (j - i - 1) := by
    have hi : e i = true := (he i (by omega)).mpr (Or.inl rfl)
    rw [message_cut (e := 1) (by omega) fun p hp hpn => by rw [hval (i + p) (by omega)]; simp; omega]
    simp [message_succ, hi]
  have hj : e j = true := (he j hjn).mpr (Or.inr rfl)
  rw [hcut, message_succ, hskip, hlead, hj, bit_true, C_1, show n - (j + 1) = n - 1 - j by omega,
    ← pow_succ', show j - i - 1 + 1 = j - i by omega]

theorem double_dvd_iff (hw : 0 < w) (hg : g.getLsbD 0 = true) {e : Nat → Bool} {n i j : Nat} (hij : i < j)
    (hjn : j < n) (he : ∀ p < n, e p = true ↔ p = i ∨ p = j) :
    generator g ∣ message e n ↔ generator g ∣ X ^ (j - i) + 1 := by
  rw [message_pair hij hjn he, dvd_X_pow_mul g hw hg]

/-! ## Odd weight -/

theorem odd_not_dvd (h1 : (generator g).eval 1 = 0) {e : Nat → Bool} {n : Nat}
    (hodd : Odd ((Finset.range n).filter fun p => e p = true).card) : ¬ generator g ∣ message e n := by
  rintro ⟨q, hq⟩
  have hv : (message e n).eval 1 = 0 := by rw [hq, eval_mul, h1, zero_mul]
  rw [eval_one_message, ZMod.natCast_eq_zero_iff_even] at hv
  exact Nat.not_even_iff_odd.mpr hodd hv

end ComClient.Gf2
