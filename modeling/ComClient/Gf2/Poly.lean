/-
  ComClient.Gf2.Poly — bit strings and words as polynomials over GF(2).

  A word of `w` bits is the polynomial whose coefficient of `X ^ i` is its bit `i`,
  least significant first (`poly`). A message of `n` bits, given by position in the
  order in which it is sent, is the polynomial whose first bit is its leading
  coefficient (`message`). Exclusive or is addition (`poly_xor`, `message_xor`),
  concatenation is multiplication by a power of `X` (`poly_append`, `message_add`),
  a word is determined by its polynomial (`poly_inj`), and the value at 1 counts the
  bits that are set (`eval_one_message`).
-/

import Mathlib

namespace ComClient.Gf2

open Polynomial

/-- A bit as a coefficient. -/
def bit (b : Bool) : ZMod 2 := if b then 1 else 0

@[simp] theorem bit_false : bit false = 0 := rfl
@[simp] theorem bit_true : bit true = 1 := rfl

theorem bit_xor (a b : Bool) : bit (a ^^ b) = bit a + bit b := by cases a <;> cases b <;> decide

theorem bit_inj {a b : Bool} (h : bit a = bit b) : a = b := by
  cases a <;> cases b <;> first | rfl | exact absurd h (by decide)

/-- The polynomial of a word. -/
noncomputable def poly {w : Nat} (v : BitVec w) : (ZMod 2)[X] :=
  ∑ i ∈ Finset.range w, C (bit (v.getLsbD i)) * X ^ i

/-- The polynomial of the first `n` bits of `f`, the first one leading. -/
noncomputable def message (f : Nat → Bool) (n : Nat) : (ZMod 2)[X] :=
  ∑ p ∈ Finset.range n, C (bit (f p)) * X ^ (n - 1 - p)

/-! ## Words -/

theorem coeff_poly {w : Nat} (v : BitVec w) (i : Nat) : (poly v).coeff i = bit (v.getLsbD i) := by
  simp only [poly, finsetSum_coeff, coeff_C_mul, coeff_X_pow, mul_ite, mul_one, mul_zero,
    Finset.sum_ite_eq, Finset.mem_range]
  split
  · rfl
  · rw [BitVec.getLsbD_of_ge v i (by omega)]; rfl

theorem poly_inj {w : Nat} {a b : BitVec w} (h : poly a = poly b) : a = b := by
  apply BitVec.eq_of_getLsbD_eq
  intro i _
  apply bit_inj
  rw [← coeff_poly, ← coeff_poly, h]

theorem poly_xor {w : Nat} (a b : BitVec w) : poly (a ^^^ b) = poly a + poly b := by
  ext i; simp only [coeff_add, coeff_poly, BitVec.getLsbD_xor, bit_xor]

@[simp] theorem poly_zero {w : Nat} : poly (0#w) = 0 := by
  ext i; simp [coeff_poly]

theorem poly_one {w : Nat} (hw : 0 < w) : poly (1#w) = 1 := by
  ext i
  rw [coeff_poly, coeff_one]
  have : (1#w).getLsbD i = decide (i = 0) := by
    rw [BitVec.getLsbD_one]
    simp [hw]
  rw [this]
  by_cases h : i = 0 <;> simp [h, bit]

theorem degree_poly_lt {w : Nat} (v : BitVec w) : (poly v).degree < w := by
  rw [degree_lt_iff_coeff_zero]
  intro i hi
  rw [coeff_poly, BitVec.getLsbD_of_ge v i hi]; rfl

/-- Placing `b` after `a` moves `a` up by the width of `b`. -/
theorem poly_append {m n : Nat} (a : BitVec m) (b : BitVec n) :
    poly (a ++ b) = X ^ n * poly a + poly b := by
  ext i
  rw [coeff_poly, coeff_add, coeff_X_pow_mul', coeff_poly, coeff_poly, BitVec.getLsbD_append]
  by_cases h : i < n
  · simp [h, Nat.not_le.mpr h]
  · simp [h, Nat.not_lt.mp h]

/-- Shifting left by one drops the top bit. -/
theorem poly_shiftLeft_one {w : Nat} (v : BitVec w) :
    poly (v <<< 1) = X * poly v + C (bit v.msb) * X ^ w := by
  ext i
  rw [coeff_poly, coeff_add, coeff_C_mul, coeff_X_pow, BitVec.getLsbD_shiftLeft]
  cases i with
  | zero =>
    cases w with
    | zero => simp [BitVec.msb, BitVec.getMsbD]
    | succ w => simp
  | succ i =>
    rw [coeff_X_mul, coeff_poly]
    rcases Nat.lt_trichotomy (i + 1) w with h | h | h
    · simp [h, Nat.ne_of_lt h]
    · subst h
      simp only [Nat.lt_irrefl, decide_false, Bool.false_and, if_true, mul_one, bit_false,
        BitVec.msb_eq_getLsbD_last, Nat.add_sub_cancel]
      exact (CharTwo.add_self_eq_zero _).symm
    · simp [Nat.not_lt.mpr (Nat.le_of_lt h), Nat.ne_of_gt h, BitVec.getLsbD_of_ge v i (by omega)]

/-! ## Messages -/

@[simp] theorem message_zero (f : Nat → Bool) : message f 0 = 0 := rfl

theorem message_succ (f : Nat → Bool) (n : Nat) :
    message f (n + 1) = X * message f n + C (bit (f n)) := by
  simp only [message, Finset.sum_range_succ, Nat.add_sub_cancel, Nat.sub_self, pow_zero, mul_one,
    Finset.mul_sum]
  refine congrArg (· + C (bit (f n))) (Finset.sum_congr rfl ?_)
  intro p hp
  have hp : p < n := Finset.mem_range.mp hp
  rw [show n - p = (n - 1 - p) + 1 by omega, pow_succ]
  ring

theorem message_congr {f g : Nat → Bool} {n : Nat} (h : ∀ p < n, f p = g p) :
    message f n = message g n := by
  apply Finset.sum_congr rfl
  intro p hp
  rw [h p (Finset.mem_range.mp hp)]

/-- A message of `n + k` bits is the first `n` moved up by `k`, and the last `k`. -/
theorem message_add (f : Nat → Bool) (n k : Nat) :
    message f (n + k) = X ^ k * message f n + message (fun p => f (n + p)) k := by
  induction k with
  | zero => simp
  | succ k ih =>
    rw [← Nat.add_assoc, message_succ, message_succ, ih, pow_succ]
    ring

theorem message_xor (f g : Nat → Bool) (n : Nat) :
    message (fun p => f p ^^ g p) n = message f n + message g n := by
  induction n with
  | zero => simp
  | succ n ih => rw [message_succ, message_succ, message_succ, ih, bit_xor, C_add]; ring

theorem message_of_zero {f : Nat → Bool} {n : Nat} (h : ∀ p < n, f p = false) : message f n = 0 := by
  rw [message_congr (g := fun _ => false) h]
  simp [message]

/-- A word is the message of its bits, most significant first. -/
theorem poly_eq_message {w : Nat} (v : BitVec w) :
    poly v = message (fun p => v.getLsbD (w - 1 - p)) w := by
  rw [poly, message, ← Finset.sum_range_reflect]

theorem coeff_message (f : Nat → Bool) (n i : Nat) :
    (message f n).coeff i = if i < n then bit (f (n - 1 - i)) else 0 := by
  induction n generalizing i with
  | zero => simp
  | succ n ih =>
    rw [message_succ, coeff_add, coeff_C]
    cases i with
    | zero => simp
    | succ i =>
      rw [coeff_X_mul, ih]
      simp only [Nat.succ_ne_zero, if_false, add_zero, Nat.add_lt_add_iff_right, Nat.add_sub_cancel]
      split
      · rw [show n - 1 - i = n - (i + 1) by omega]
      · rfl

theorem degree_message_lt (f : Nat → Bool) (n : Nat) : (message f n).degree < n := by
  rw [degree_lt_iff_coeff_zero]
  intro i hi
  rw [coeff_message, if_neg (by omega)]

theorem message_ne_zero {f : Nat → Bool} {n p : Nat} (hp : p < n) (hf : f p = true) : message f n ≠ 0 := by
  intro h
  have hc : (message f n).coeff (n - 1 - p) = 0 := by rw [h]; exact coeff_zero _
  rw [coeff_message, if_pos (by omega), show n - 1 - (n - 1 - p) = p by omega, hf] at hc
  exact absurd hc (by decide)

/-- The value at 1 is the parity of the number of bits that are set. -/
theorem eval_one_message (f : Nat → Bool) (n : Nat) :
    (message f n).eval 1 = (((Finset.range n).filter fun p => f p = true).card : ZMod 2) := by
  induction n with
  | zero => simp
  | succ n ih =>
    rw [message_succ, eval_add, eval_mul, eval_X, eval_C, one_mul, ih, Finset.range_add_one,
      Finset.filter_insert]
    cases h : f n
    · simp
    · simp

end ComClient.Gf2
