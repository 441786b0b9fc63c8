/-
  ComClient.Probe.Reads — computations that see a memory one cell at a time.

  A `Probe` is done, or peeks at a cell and goes on with what it finds there. The cells it
  peeks at (`reads`) may depend on what it has found before; its `value` depends on these
  cells and no others (`value_local`).
-/

import Mathlib.Data.List.Basic

namespace ComClient

inductive Probe (ι β : Type*) (α : Type*)
  | done (a : α)
  | peek (i : ι) (next : β → Probe ι β α)

namespace Probe

variable {ι β α γ : Type*} {m m' : ι → β}

def value (m : ι → β) : Probe ι β α → α
  | done a => a
  | peek i next => (next (m i)).value m

def reads (m : ι → β) : Probe ι β α → List ι
  | done _ => []
  | peek i next => i :: (next (m i)).reads m

@[simp] theorem value_done (a : α) : (done a : Probe ι β α).value m = a := rfl
@[simp] theorem value_peek (i : ι) (next : β → Probe ι β α) : (peek i next).value m = (next (m i)).value m := rfl
@[simp] theorem reads_done (a : α) : (done a : Probe ι β α).reads m = [] := rfl
@[simp] theorem reads_peek (i : ι) (next : β → Probe ι β α) : (peek i next).reads m = i :: (next (m i)).reads m := rfl

theorem value_local {p : Probe ι β α} (h : ∀ i ∈ p.reads m, m' i = m i) : p.value m' = p.value m := by
  induction p with
  | done a => rfl
  | peek i next ih =>
    obtain ⟨hi, hrest⟩ := List.forall_mem_cons.mp h
    rw [value_peek, value_peek, hi]
    exact ih (m i) hrest

/-! ## One after the other -/

def andThen : Probe ι β α → (α → Probe ι β γ) → Probe ι β γ
  | done a, f => f a
  | peek i next, f => peek i fun b => (next b).andThen f

@[simp] theorem value_andThen (p : Probe ι β α) (f : α → Probe ι β γ) :
    (p.andThen f).value m = (f (p.value m)).value m := by
  induction p with
  | done a => rfl
  | peek i next ih => exact ih (m i)

@[simp] theorem reads_andThen (p : Probe ι β α) (f : α → Probe ι β γ) :
    (p.andThen f).reads m = p.reads m ++ (f (p.value m)).reads m := by
  induction p with
  | done a => rfl
  | peek i next ih => exact congrArg (i :: ·) (ih (m i))

/-- A loop over cells that are known beforehand. -/
def along (f : α → β → α) (a : α) : List ι → Probe ι β α
  | [] => done a
  | i :: is => peek i fun b => along f (f a b) is

@[simp] theorem value_along (f : α → β → α) (a : α) (is : List ι) : (along f a is).value m = (is.map m).foldl f a := by
  induction is generalizing a with
  | nil => rfl
  | cons i is ih => exact ih (f a (m i))

@[simp] theorem reads_along (f : α → β → α) (a : α) (is : List ι) : (along f a is).reads m = is := by
  induction is generalizing a with
  | nil => rfl
  | cons i is ih => exact congrArg (i :: ·) (ih (f a (m i)))

end Probe

end ComClient
