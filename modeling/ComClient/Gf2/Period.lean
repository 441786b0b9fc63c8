/-
  ComClient.Gf2.Period — the period of `X` modulo a generator.

  A generator divides `X ^ d + 1` exactly for the multiples `d` of the order of `X`
  in the residues (`dvd_X_pow_add_one_iff`). The order is decided on words: `mulMod`
  multiplies two residues held in registers (Horner's rule, one `feed` a bit), `powX`
  raises `X` to a power by squaring, and a power that is 1 while none of its
  quotients by a prime is gives the order (`order_of_powX`).
-/

import ComClient.Gf2.Register

namespace ComClient.Gf2

open Polynomial

variable {w : Nat} (g : BitVec w)

/-- `a` times the leading `n` bits of `b`. -/
def mulTop (a b : BitVec w) : Nat → BitVec w
  | 0 => 0#w
  | n + 1 => feed g (mulTop a b n) false ^^^ (if b.getLsbD (w - 1 - n) then a else 0#w)

def mulMod (a b : BitVec w) : BitVec w := mulTop g a b w

/-- `X ^ n`, for an `n` of at most `fuel` binary digits. -/
def powX : Nat → Nat → BitVec w
  | 0, _ => 1#w
  | fuel + 1, n =>
    let h := powX fuel (n / 2)
    if n % 2 = 1 then feed g (mulMod g h h) false else mulMod g h h

theorem residue_mulTop (a b : BitVec w) (n : Nat) :
    residue g (poly (mulTop g a b n)) =
      residue g (poly a) * residue g (message (fun p => b.getLsbD (w - 1 - p)) n) := by
  induction n with
  | zero => simp [mulTop]
  | succ n ih =>
    rw [mulTop, poly_xor, map_add, residue_feed, message_succ]
    simp only [bit_false, C_0, mul_zero, add_zero, map_mul, map_add, ih]
    cases h : b.getLsbD (w - 1 - n)
    · simp; ring
    · simp; ring

theorem residue_mulMod (a b : BitVec w) :
    residue g (poly (mulMod g a b)) = residue g (poly a) * residue g (poly b) := by
  rw [mulMod, residue_mulTop, ← poly_eq_message]

theorem residue_powX (hw : 0 < w) (fuel n : Nat) (hn : n < 2 ^ fuel) :
    residue g (poly (powX g fuel n)) = residue g X ^ n := by
  induction fuel generalizing n with
  | zero =>
    have : n = 0 := by omega
    rw [this, powX, poly_one hw, map_one, pow_zero]
  | succ fuel ih =>
    have h2 : residue g (poly (mulMod g (powX g fuel (n / 2)) (powX g fuel (n / 2)))) =
        residue g X ^ (2 * (n / 2)) := by
      rw [residue_mulMod, ih (n / 2) (by omega), ← pow_add, two_mul]
    simp only [powX]
    split
    · rename_i ho
      rw [residue_feed]
      simp only [bit_false, C_0, mul_zero, add_zero, map_mul, h2]
      rw [← pow_succ', show 2 * (n / 2) + 1 = n by omega]
    · rw [h2, show 2 * (n / 2) = n by omega]

theorem residue_powX_eq_one (hw : 0 < w) {fuel n : Nat} (hn : n < 2 ^ fuel) :
    residue g X ^ n = 1 ↔ powX g fuel n = 1#w := by
  rw [← residue_powX g hw fuel n hn, ← map_one (residue g), ← poly_one hw]
  exact ⟨residue_poly_inj g, fun h => by rw [h]⟩

/-- The order of `X`, from its powers held in registers. -/
theorem order_of_powX (hw : 0 < w) (fuel : Nat) {N : Nat} (hN : 0 < N) (hfuel : N < 2 ^ fuel)
    (hone : powX g fuel N = 1#w) (hmin : ∀ p : Nat, p.Prime → p ∣ N → powX g fuel (N / p) ≠ 1#w) :
    orderOf (residue g X) = N := by
  refine orderOf_eq_of_pow_and_pow_div_prime hN ((residue_powX_eq_one g hw hfuel).mpr hone) ?_
  intro p hp hd h
  have hlt : N / p < 2 ^ fuel := Nat.lt_of_le_of_lt (Nat.div_le_self N p) hfuel
  exact hmin p hp hd ((residue_powX_eq_one g hw hlt).mp h)

theorem dvd_X_pow_add_one_iff (d : Nat) : generator g ∣ X ^ d + 1 ↔ orderOf (residue g X) ∣ d := by
  rw [orderOf_dvd_iff_pow_eq_one, ← map_pow, ← residue_eq_zero, map_add, map_one]
  constructor
  · intro h
    have h2 : residue g X ^ d + (1 + 1) = 1 := by
      rw [← add_assoc, ← map_pow, h, zero_add]
    have h0 : (1 + 1 : AdjoinRoot (generator g)) = 0 := by
      rw [← map_one (residue g), ← map_add, CharTwo.add_self_eq_zero, map_zero]
    rwa [h0, add_zero, ← map_pow] at h2
  · intro h
    rw [h, ← map_one (residue g), ← map_add, CharTwo.add_self_eq_zero, map_zero]

end ComClient.Gf2
