/-
  ComClient.Gf2.Window — the windows of a message, for a generator of `w` bits.

  A window of `w` positions holds a word (`overwrite`), which enters the polynomial with
  a power of `X` (`message_overwrite`). A generator with a constant term takes that power
  back, so
  - `exists_unique_window`: whatever stands around a window, exactly one of the 2^w words
    in it makes the message divisible.
  - `wide_burst_dvd_iff`: among the patterns of `w + 1` positions, the generator divides
    its own and no other.
-/

import ComClient.Gf2.Detect

namespace ComClient.Gf2

open Polynomial

variable {w : Nat} (g : BitVec w)

/-- `f` with the word `v` at the positions from `k` on, its top bit first. -/
def overwrite (f : Nat → Bool) (k : Nat) (v : BitVec w) (p : Nat) : Bool :=
  if k ≤ p ∧ p < k + w then v.getLsbD (w - 1 - (p - k)) else f p

theorem message_overwrite (f : Nat → Bool) {n k : Nat} (v : BitVec w) (hk : k + w ≤ n) :
    message (overwrite f k v) n = X ^ (n - (k + w)) * poly v + message (overwrite f k 0#w) n := by
  have hsplit : ∀ h : Nat → Bool, message h n =
      X ^ (n - (k + w)) * (X ^ w * message h k + message (fun p => h (k + p)) w) +
        message (fun p => h (k + w + p)) (n - (k + w)) := by
    intro h
    rw [← message_add, ← message_add, show k + w + (n - (k + w)) = n by omega]
  have hbefore : ∀ u : BitVec w, message (overwrite f k u) k = message f k := by
    intro u
    refine message_congr fun p hp => if_neg (by omega)
  have hwithin : ∀ u : BitVec w, message (fun p => overwrite f k u (k + p)) w = poly u := by
    intro u
    rw [poly_eq_message]
    refine message_congr fun p hp => ?_
    rw [overwrite, if_pos (by omega), show k + p - k = p by omega]
  have hafter : ∀ u : BitVec w, message (fun p => overwrite f k u (k + w + p)) (n - (k + w)) =
      message (fun p => f (k + w + p)) (n - (k + w)) := by
    intro u
    refine message_congr fun p hp => if_neg (by omega)
  rw [hsplit (overwrite f k v), hsplit (overwrite f k 0#w), hbefore, hbefore, hwithin, hwithin, hafter, hafter, poly_zero]
  ring

/-! ## One word for each window -/

/-- Two words of a window leave different registers. -/
theorem feeds_overwrite_injective (hw : 0 < w) (hg : g.getLsbD 0 = true) (f : Nat → Bool) {n k : Nat} (hk : k + w ≤ n) :
    Function.Injective fun v : BitVec w => feeds g (overwrite f k v) 0#w n := by
  have hleft : ∀ v : BitVec w, residue g (poly (feeds g (overwrite f k v) 0#w n)) =
      residue g (X ^ w * X ^ (n - (k + w)) * poly v) + residue g (X ^ w * message (overwrite f k 0#w) n) := by
    intro v
    rw [residue_feeds, poly_zero, mul_zero, zero_add, message_overwrite f v hk, ← map_add]
    congr 1
    ring
  intro u v huv
  have hsame : residue g (X ^ w * X ^ (n - (k + w)) * poly u) = residue g (X ^ w * X ^ (n - (k + w)) * poly v) := by
    refine add_right_cancel (b := residue g (X ^ w * message (overwrite f k 0#w) n)) ?_
    rw [← hleft u, ← hleft v]
    exact congrArg (fun r => residue g (poly r)) huv
  have hzero : residue g (X ^ w * X ^ (n - (k + w)) * poly (u ^^^ v)) = 0 := by
    rw [poly_xor, mul_add, map_add, hsame, ← map_add, CharTwo.add_self_eq_zero, map_zero]
  rw [residue_eq_zero, ← pow_add, dvd_X_pow_mul g hw hg, ← residue_eq_zero] at hzero
  exact BitVec.xor_eq_zero_iff.mp (eq_zero_of_residue g hzero)

/-- An injective map of the words to themselves is onto, so one of them leaves an empty
    register. -/
theorem exists_unique_window (hw : 0 < w) (hg : g.getLsbD 0 = true) (f : Nat → Bool) {n k : Nat} (hk : k + w ≤ n) :
    ∃! v : BitVec w, generator g ∣ message (overwrite f k v) n := by
  have hinj := feeds_overwrite_injective g hw hg f hk
  have hiff : ∀ v : BitVec w, generator g ∣ message (overwrite f k v) n ↔ feeds g (overwrite f k v) 0#w n = 0#w := by
    intro v
    have hdvd := dvd_iff_trailer g (overwrite f k v) n 0#w
    rw [poly_zero, add_zero, dvd_X_pow_mul g hw hg] at hdvd
    exact hdvd
  obtain ⟨v, hv⟩ := Finite.surjective_of_injective hinj 0#w
  refine ⟨v, (hiff v).mpr hv, ?_⟩
  intro u hu
  exact hinj (((hiff u).mp hu).trans hv.symm)

/-! ## Bursts that are one bit wider than the register -/

/-- The bits of the generator, the top one first. -/
def generatorBit (j : Nat) : Bool := if j = 0 then true else g.getLsbD (w - j)

theorem message_generatorBit : message (generatorBit g) (w + 1) = generator g := by
  have htail : message (fun p => generatorBit g (1 + p)) w = poly g := by
    rw [poly_eq_message]
    refine message_congr fun p hp => ?_
    rw [generatorBit, if_neg (by omega), show w - (1 + p) = w - 1 - p by omega]
  have hhead : message (generatorBit g) 1 = 1 := by
    rw [message_succ, message_zero, mul_zero, zero_add, generatorBit, if_pos rfl, bit_true, C_1]
  rw [Nat.add_comm, message_add, hhead, htail, mul_one, generator]

theorem message_inj {f h : Nat → Bool} {n : Nat} (heq : message f n = message h n) : ∀ p < n, f p = h p := by
  intro p hp
  have hc : (message f n).coeff (n - 1 - p) = (message h n).coeff (n - 1 - p) := by rw [heq]
  rw [coeff_message, coeff_message, if_pos (by omega), if_pos (by omega), show n - 1 - (n - 1 - p) = p by omega] at hc
  exact bit_inj hc

/-- Of the polynomials of degree `w` and less, the generator divides itself and zero. -/
theorem dvd_message_succ_iff {e : Nat → Bool} (hne : ∃ p < w + 1, e p = true) :
    generator g ∣ message e (w + 1) ↔ ∀ p < w + 1, e p = generatorBit g p := by
  constructor
  · intro hd
    cases h0 : e 0 with
    | false =>
      -- without a leading bit the degree is too low
      exfalso
      obtain ⟨p, hp, hep⟩ := hne
      refine message_ne_zero hp hep (eq_zero_of_dvd_of_degree_lt hd ?_)
      have hcut : message e (w + 1) = message (fun p => e (1 + p)) w := by
        rw [message_skip (k := 1) (by omega) fun q hq => by rw [show q = 0 by omega]; exact h0, Nat.add_sub_cancel]
      rw [hcut, degree_generator]
      exact degree_message_lt _ _
    | true =>
      have hdiff : generator g ∣ message (fun p => e p ^^ generatorBit g p) (w + 1) := by
        rw [message_xor, message_generatorBit]
        exact dvd_add hd dvd_rfl
      have hskip : message (fun p => e p ^^ generatorBit g p) (w + 1) =
          message (fun p => e (1 + p) ^^ generatorBit g (1 + p)) w := by
        rw [message_skip (k := 1) (by omega) fun q hq => by
          rw [show q = 0 by omega, h0]
          rfl, Nat.add_sub_cancel]
      have hzero : message (fun p => e p ^^ generatorBit g p) (w + 1) = 0 := by
        refine eq_zero_of_dvd_of_degree_lt hdiff ?_
        rw [hskip, degree_generator]
        exact degree_message_lt _ _
      rw [message_xor] at hzero
      exact message_inj (CharTwo.add_eq_zero.mp hzero)
  · intro hall
    rw [message_congr hall, message_generatorBit]

theorem wide_burst_dvd_iff (hw : 0 < w) (hg : g.getLsbD 0 = true) {e : Nat → Bool} {n k : Nat} (hk : k + w < n)
    (hne : ∃ p < n, e p = true) (hin : ∀ p < n, e p = true → k ≤ p ∧ p ≤ k + w) :
    generator g ∣ message e n ↔ ∀ j < w + 1, e (k + j) = generatorBit g j := by
  have houtside : ∀ p < n, ¬ (k ≤ p ∧ p ≤ k + w) → e p = false := by
    intro p hp hout
    cases h : e p with
    | false => rfl
    | true => exact absurd (hin p hp h) hout
  have hcut : message e n = X ^ (n - (k + w + 1)) * message e (k + w + 1) :=
    message_cut (by omega) fun p hp hpn => houtside p hpn (by omega)
  have hskip : message e (k + w + 1) = message (fun p => e (k + p)) (w + 1) := by
    rw [message_skip (k := k) (by omega) fun p hp => houtside p (by omega) (by omega), show k + w + 1 - k = w + 1 by omega]
  rw [hcut, dvd_X_pow_mul g hw hg, hskip]
  refine dvd_message_succ_iff g ?_
  obtain ⟨p, hp, hep⟩ := hne
  have hwin := hin p hp hep
  exact ⟨p - k, by omega, by rw [show k + (p - k) = p by omega]; exact hep⟩

end ComClient.Gf2
