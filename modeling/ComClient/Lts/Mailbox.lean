/-
  ComClient.Lts.Mailbox — first in, first out boxes: what is put into a box is taken out
  of it from the front, or dropped with all the rest.

  In every run what was taken from a box and what is left in it come from what was put
  into it, in that order, nothing twice (`takes_sublist`); and all of it is there if and
  only if a box was never dropped with anything in it (`takes_eq_iff`).
-/

import ComClient.Lts.Run

namespace ComClient.Mailbox

open ComClient.Lts

inductive Act (ι α : Type) where
  | put (i : ι) (xs : List α)
  | take (i : ι) (xs : List α)
  | drop (i : ι)

variable {ι α : Type} [DecidableEq ι] [DecidableEq α]

def step (m : ι → List α) : Act ι α → Option (ι → List α)
  | .put i xs => some (Function.update m i (m i ++ xs))
  | .take i xs => if xs <+: m i then some (Function.update m i ((m i).drop xs.length)) else none
  | .drop i => some (Function.update m i [])

/-- What is put into the box. -/
def puts (i : ι) : Act ι α → List α
  | .put j xs => if j = i then xs else []
  | _ => []

/-- What is taken from it. -/
def takes (i : ι) : Act ι α → List α
  | .take j xs => if j = i then xs else []
  | _ => []

/-- The box is not dropped with anything in it. -/
def Keeps (i : ι) (m : ι → List α) : Act ι α → Prop
  | .drop j => j = i → m i = []
  | _ => True

variable {m m' : ι → List α} {a : Act ι α} {as : List (Act ι α)} {i : ι}

/-- A step moves what is in the box, unless it drops it. -/
theorem step_moves (h : step m a = some m') :
    m i ++ puts i a = takes i a ++ m' i ∨ (a = .drop i ∧ m' i = []) := by
  cases a with
  | put j xs =>
    cases h
    left
    by_cases hj : j = i
    · subst hj
      simp [puts, takes]
    · simp [puts, takes, hj, Function.update_of_ne (Ne.symm hj)]
  | take j xs =>
    obtain ⟨hpre, h⟩ := Option.ite_none_right_eq_some.mp h
    cases h
    left
    by_cases hj : j = i
    · subst hj
      simp [puts, takes, List.prefix_iff_eq_append.mp hpre]
    · simp [puts, takes, hj, Function.update_of_ne (Ne.symm hj)]
  | drop j =>
    cases h
    by_cases hj : j = i
    · subst hj
      exact Or.inr ⟨rfl, Function.update_self ..⟩
    · left
      simp [puts, takes, Function.update_of_ne (Ne.symm hj)]

theorem takes_sublist (h : run step m as = some m') (i : ι) :
    (as.flatMap (takes i) ++ m' i).Sublist (m i ++ as.flatMap (puts i)) := by
  induction as generalizing m with
  | nil =>
    rw [Option.some.inj h]
    simp
  | cons a as ih =>
    obtain ⟨u, hu, hrun⟩ := run_cons.mp h
    rw [List.flatMap_cons, List.flatMap_cons, List.append_assoc, ← List.append_assoc (m i)]
    have hrest := ih hrun
    rcases step_moves hu (i := i) with hmove | ⟨rfl, hempty⟩
    · rw [hmove, List.append_assoc]
      exact hrest.append_left (takes i a)
    · rw [hempty, List.nil_append] at hrest
      exact hrest.trans (List.sublist_append_right _ _)

/-- The elements that a box has lost are those it was dropped with. -/
theorem takes_eq_iff (h : run step m as = some m') (i : ι) :
    m i ++ as.flatMap (puts i) = as.flatMap (takes i) ++ m' i ↔ Meets step (Keeps i) m as := by
  induction as generalizing m with
  | nil =>
    rw [Option.some.inj h]
    simp [Meets]
  | cons a as ih =>
    obtain ⟨u, hu, hrun⟩ := run_cons.mp h
    rw [List.flatMap_cons, List.flatMap_cons, List.append_assoc, ← List.append_assoc (m i), meets_cons hu]
    have hrest := ih hrun
    have hlen := (takes_sublist hrun i).length_le
    rcases step_moves hu (i := i) with hmove | ⟨rfl, hempty⟩
    · rw [hmove, List.append_assoc, List.append_cancel_left_eq, hrest]
      refine (and_iff_right ?_).symm
      cases a with
      | put j xs => trivial
      | take j xs => trivial
      | drop j =>
        intro heq
        subst heq
        cases hu
        simpa [puts, takes] using hmove
    · rw [hempty, List.nil_append] at hrest hlen
      constructor
      · intro heq
        have hnil : m i = [] := by
          have hcount := congrArg List.length heq
          simp only [puts, takes, List.append_nil, List.nil_append, List.length_append] at hcount hlen
          exact List.length_eq_zero_iff.mp (by omega)
        refine ⟨fun _ => hnil, hrest.mp ?_⟩
        simpa [hnil, puts, takes] using heq
      · intro hkeeps
        have hnil : m i = [] := hkeeps.1 rfl
        simpa [hnil, puts, takes] using hrest.mpr hkeeps.2

end ComClient.Mailbox
