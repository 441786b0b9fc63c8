/-
  ComClient.Gf2.Register — the shift register of a cyclic redundancy check.

  A register of `w` bits with feedback `g` stands for a residue modulo the generator
  `X ^ w + g`. Feeding it a bit (`feed`: shift left, and exclusive-or `g` whenever
  the bit shifted out differs from the message bit) is `r ↦ X r + X ^ w b` there
  (`residue_feed`), so a whole message fed into `r` leaves `X ^ n r + X ^ w m`
  (`residue_feeds`). The register is the remainder itself, not only a word congruent
  to it: two registers with one residue are equal (`residue_poly_inj`). A message
  followed by a trailer of `w` bits is therefore divisible by the generator exactly
  when the trailer is the register the message leaves (`dvd_iff_trailer`).
-/

import ComClient.Gf2.Poly

namespace ComClient.Gf2

open Polynomial

variable {w : Nat} (g : BitVec w)

/-- `X ^ w + g`. -/
noncomputable def generator : (ZMod 2)[X] := X ^ w + poly g

theorem degree_generator : (generator g).degree = w := by
  rw [generator, degree_add_eq_left_of_degree_lt] <;> rw [degree_X_pow]
  exact degree_poly_lt g

/-- The class of a polynomial modulo the generator. -/
noncomputable def residue : (ZMod 2)[X] →+* AdjoinRoot (generator g) := AdjoinRoot.mk (generator g)

theorem residue_eq_zero {p : (ZMod 2)[X]} : residue g p = 0 ↔ generator g ∣ p := AdjoinRoot.mk_eq_zero

@[simp] theorem residue_generator : residue g (generator g) = 0 := AdjoinRoot.mk_self

theorem eq_zero_of_residue {a : BitVec w} (h : residue g (poly a) = 0) : a = 0#w := by
  have hz : poly a = 0 :=
    eq_zero_of_dvd_of_degree_lt ((residue_eq_zero g).mp h) (by rw [degree_generator]; exact degree_poly_lt a)
  exact poly_inj (by rw [hz, poly_zero])

theorem residue_poly_inj {a b : BitVec w} (h : residue g (poly a) = residue g (poly b)) : a = b := by
  have hx : a ^^^ b = 0#w :=
    eq_zero_of_residue g (by rw [poly_xor, map_add, h, ← map_add, CharTwo.add_self_eq_zero, map_zero])
  exact BitVec.xor_eq_zero_iff.mp hx

/-! ## Feeding bits -/

/-- One message bit through the register. -/
def feed (r : BitVec w) (b : Bool) : BitVec w := if r.msb ^^ b then (r <<< 1) ^^^ g else r <<< 1

/-- The first `n` bits of `f` through the register, from `r`. -/
def feeds (f : Nat → Bool) (r : BitVec w) : Nat → BitVec w
  | 0 => r
  | n + 1 => feed g (feeds f r n) (f n)

theorem poly_feed (r : BitVec w) (b : Bool) :
    poly (feed g r b) = X * poly r + X ^ w * C (bit b) + C (bit (r.msb ^^ b)) * generator g := by
  have h2 : (2 : (ZMod 2)[X]) = 0 := CharTwo.two_eq_zero
  have hx : C (bit (r.msb ^^ b)) = C (bit r.msb) + C (bit b) := by rw [bit_xor, C_add]
  unfold feed generator
  cases h : (r.msb ^^ b)
  · rw [h] at hx
    simp only [Bool.false_eq_true, if_false, poly_shiftLeft_one, bit_false, C_0] at hx ⊢
    linear_combination -X ^ w * hx - X ^ w * C (bit b) * h2
  · rw [h] at hx
    simp only [if_true, poly_xor, poly_shiftLeft_one, bit_true, C_1] at hx ⊢
    linear_combination -X ^ w * hx - X ^ w * C (bit b) * h2

theorem residue_feed (r : BitVec w) (b : Bool) :
    residue g (poly (feed g r b)) = residue g (X * poly r + X ^ w * C (bit b)) := by
  rw [poly_feed, map_add _ _ (C _ * generator g), map_mul _ (C _), residue_generator, mul_zero, add_zero]

theorem residue_feeds (f : Nat → Bool) (r : BitVec w) (n : Nat) :
    residue g (poly (feeds g f r n)) = residue g (X ^ n * poly r + X ^ w * message f n) := by
  induction n with
  | zero => simp [feeds]
  | succ n ih =>
    rw [feeds, residue_feed, map_add, map_mul, ih, message_succ, pow_succ]
    simp only [map_add, map_mul]
    ring

theorem feeds_congr {f f' : Nat → Bool} (r : BitVec w) {n : Nat} (h : ∀ p < n, f p = f' p) :
    feeds g f r n = feeds g f' r n := by
  induction n with
  | zero => rfl
  | succ n ih => rw [feeds, feeds, ih fun p hp => h p (by omega), h n (by omega)]

/-- The first bit is fed first. -/
theorem feeds_succ' (f : Nat → Bool) (r : BitVec w) (n : Nat) :
    feeds g f r (n + 1) = feeds g (fun p => f (p + 1)) (feed g r (f 0)) n := by
  induction n with
  | zero => rfl
  | succ n ih => rw [feeds, ih, feeds]

theorem feeds_add (f : Nat → Bool) (r : BitVec w) (a b : Nat) :
    feeds g f r (a + b) = feeds g (fun p => f (a + p)) (feeds g f r a) b := by
  induction b with
  | zero => rfl
  | succ b ih => rw [← Nat.add_assoc, feeds, ih, feeds]

/-! ## Acceptance -/

/-- A message and a trailer are divisible by the generator exactly when the trailer
    is what the message leaves in the register. -/
theorem dvd_iff_trailer (f : Nat → Bool) (n : Nat) (t : BitVec w) :
    generator g ∣ X ^ w * message f n + poly t ↔ feeds g f 0#w n = t := by
  have hr : residue g (poly (feeds g f 0#w n)) = residue g (X ^ w * message f n) := by
    rw [residue_feeds, poly_zero, mul_zero, zero_add]
  rw [← residue_eq_zero, map_add, ← hr, ← map_add, ← poly_xor, ← BitVec.xor_eq_zero_iff]
  constructor
  · exact eq_zero_of_residue g
  · intro h
    rw [h, poly_zero, map_zero]

end ComClient.Gf2
