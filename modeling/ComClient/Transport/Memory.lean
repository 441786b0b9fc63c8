/-
  ComClient.Transport.Memory — the memory a client call works on, and the conversions
  of the C++ integer types it goes through.

  Addresses are relative to the start of the caller's buffer, so a write before the
  buffer is a write at a negative address and stays visible. `store` and `load` are
  the byte transfers of the system calls; `load16` and `store16` are the accesses
  through `*(uint16_t *)` on a little-endian host.
-/

import Mathlib

namespace ComClient.Transport

abbrev Byte := BitVec 8

/-- Byte `i` of the buffer at `i`; what lies around the buffer at the other addresses. -/
abbrev Mem := Int → Byte

def store (m : Mem) (o : Int) (bs : List Byte) : Mem :=
  fun i => if o ≤ i ∧ i < o + bs.length then bs.getD (i - o).toNat 0 else m i

def load (m : Mem) (o : Int) (n : Nat) : List Byte := (List.range n).map fun k : Nat => m (o + k)

def load16 (m : Mem) (o : Int) : BitVec 16 := m (o + 1) ++ m o

def store16 (m : Mem) (o : Int) (v : BitVec 16) : Mem := store m o [v.setWidth 8, (v >>> 8).setWidth 8]

/-- A buffer that holds `bs`, with zeros around it. -/
def memOf (bs : List Byte) : Mem := store (fun _ => 0) 0 bs

/-! ## Integer types -/

/-- `size_t`, of 64 bits. -/
abbrev SizeT := Fin (2 ^ 64)

/-- `(size_t)n`. -/
def toSizeT (n : Int) : SizeT := ⟨(n % 2 ^ 64).toNat, by omega⟩

/-- The conversion to `int`, of 32 bits. -/
def toInt (n : Int) : Int := Int.bmod n (2 ^ 32)

/-- What a `ssize_t` can hold. A sum outside it has no defined value. -/
def fitsSsize (n : Int) : Bool := decide (-2 ^ 63 ≤ n ∧ n < 2 ^ 63)

/-- What an `int` can hold; a difference outside it has no defined value either. -/
def fitsInt (n : Int) : Bool := decide (-2 ^ 31 ≤ n ∧ n < 2 ^ 31)

theorem toSizeT_val (n : Int) : ((toSizeT n).val : Int) = n % 2 ^ 64 := by
  simp only [toSizeT]; omega

theorem toSizeT_eq {size : SizeT} {n : Int} (h : n % 2 ^ 64 = size.val) : toSizeT n = size := by
  unfold toSizeT
  exact Fin.eq_of_val_eq (by dsimp only; omega)

theorem toSizeT_ne_of_lt {size : SizeT} {n : Int} (h1 : size.val - 2 ^ 64 < n) (h2 : n < size.val) :
    toSizeT n ≠ size := by
  intro h
  have := toSizeT_val n
  rw [h] at this
  omega

theorem toInt_of_lt {n : Int} (h1 : -2 ^ 31 ≤ n) (h2 : n < 2 ^ 31) : toInt n = n := by
  unfold toInt
  rw [Int.bmod_def]
  split <;> omega

theorem toInt_lt (n : Int) : toInt n < 2 ^ 31 := by
  unfold toInt
  rw [Int.bmod_def]
  split <;> omega

theorem two_le_toInt_iff (n : Int) : 2 ≤ toInt n ↔ 2 ≤ n % 2 ^ 32 ∧ n % 2 ^ 32 < 2 ^ 31 := by
  unfold toInt
  rw [Int.bmod_def]
  split <;> omega

theorem toInt_le {n : Int} (h : 0 ≤ n) : toInt n ≤ n := by
  unfold toInt
  rw [Int.bmod_def]
  split <;> omega

theorem fitsInt_iff {n : Int} : fitsInt n = true ↔ -2 ^ 31 ≤ n ∧ n < 2 ^ 31 := decide_eq_true_iff

theorem fitsSsize_iff {n : Int} : fitsSsize n = true ↔ -2 ^ 63 ≤ n ∧ n < 2 ^ 63 := decide_eq_true_iff

/-! ## Loads and stores -/

@[simp] theorem length_load (m : Mem) (o : Int) (n : Nat) : (load m o n).length = n := by simp [load]

@[simp] theorem load_zero (m : Mem) (o : Int) : load m o 0 = [] := rfl

@[simp] theorem store_nil (m : Mem) (o : Int) : store m o [] = m := by
  funext i
  simp only [store, List.length_nil]
  rw [if_neg (by omega)]

theorem store_in (m : Mem) (o : Int) (bs : List Byte) {i : Int} (h1 : o ≤ i) (h2 : i < o + bs.length) :
    store m o bs i = bs.getD (i - o).toNat 0 := if_pos ⟨h1, h2⟩

theorem store_out (m : Mem) (o : Int) (bs : List Byte) {i : Int} (h : i < o ∨ o + bs.length ≤ i) :
    store m o bs i = m i := if_neg (by omega)

theorem load_congr {m m' : Mem} {o : Int} {n : Nat} (h : ∀ i, o ≤ i → i < o + n → m i = m' i) :
    load m o n = load m' o n := by
  apply List.map_congr_left
  intro k hk
  have := List.mem_range.mp hk
  exact h _ (by omega) (by omega)

/-- What a load read. -/
theorem load_at {m m' : Mem} {o : Int} {n : Nat} (h : load m o n = load m' o n) {i : Nat} (hi : i < n) :
    m (o + i) = m' (o + i) := List.map_inj_left.mp h i (List.mem_range.mpr hi)

theorem load_add (m : Mem) (o : Int) (a b : Nat) : load m o (a + b) = load m o a ++ load m (o + a) b := by
  unfold load
  rw [List.range_add, List.map_append, List.map_map]
  congr 1
  apply List.map_congr_left
  intro k _
  simp only [Function.comp_apply]
  rw [show o + ((a + k : Nat) : Int) = o + a + k by omega]

theorem load_succ (m : Mem) (o : Int) (n : Nat) : load m o (n + 1) = load m o n ++ [m (o + n)] := by
  rw [load_add]; simp [load]

theorem load_store_same (m : Mem) (o : Int) (bs : List Byte) : load (store m o bs) o bs.length = bs := by
  apply List.ext_getElem (length_load _ _ _)
  intro i h1 h2
  simp only [load, List.getElem_map, List.getElem_range]
  rw [store_in _ _ _ (by omega) (by omega), show (o + (i : Int) - o).toNat = i by omega,
    List.getD_eq_getElem _ _ h2]

theorem load_store_out (m : Mem) (o : Int) (bs : List Byte) {o' : Int} {n : Nat}
    (h : o' + n ≤ o ∨ o + bs.length ≤ o') : load (store m o bs) o' n = load m o' n :=
  load_congr fun _ _ _ => store_out _ _ _ (by omega)

/-- Storing `b` right after `a` is storing both at once. -/
theorem store_store (m : Mem) (o : Int) (a b : List Byte) :
    store (store m o a) (o + a.length) b = store m o (a ++ b) := by
  funext i
  by_cases h1 : o + a.length ≤ i ∧ i < o + a.length + b.length
  · rw [store_in _ _ _ h1.1 h1.2, store_in _ _ _ (by omega) (by rw [List.length_append]; omega),
      List.getD_append_right _ _ _ _ (by omega)]
    congr 1; omega
  · rw [store_out _ _ _ (by omega)]
    by_cases h2 : o ≤ i ∧ i < o + a.length
    · rw [store_in _ _ _ h2.1 h2.2, store_in _ _ _ (by omega) (by rw [List.length_append]; omega),
        List.getD_append _ _ _ _ (by omega)]
    · rw [store_out _ _ _ (by omega), store_out _ _ _ (by rw [List.length_append]; omega)]

theorem load_memOf (bs : List Byte) : load (memOf bs) 0 bs.length = bs := load_store_same _ _ _

/-- A prefix of what a load reads. -/
theorem load_take (m : Mem) (o : Int) {k n : Nat} (h : k ≤ n) : (load m o n).take k = load m o k := by
  rw [show n = k + (n - k) by omega, load_add, List.take_left' (length_load _ _ _)]

end ComClient.Transport
