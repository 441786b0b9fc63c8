/-
  ComClient.Lts.Run — finite runs of a transition system given by a partial step
  function: `step s a` is the state after the action `a`, or none where `a` cannot be
  taken. What the system does not decide itself is part of the action.

  An invariant of every step is an invariant of every run (`run_invariant`); so is one
  that holds only of steps that meet a condition, in the runs whose steps all meet it
  (`run_invariant_of_meets`), and a relation between the state and the actions so far
  (`run_trace`, `run_trace_of_forall`).
-/

import Mathlib

namespace ComClient.Lts

variable {σ α : Type} (step : σ → α → Option σ)

def run : σ → List α → Option σ
  | s, [] => some s
  | s, a :: as => (step s a).bind fun t => run t as

/-- Every step of the run from `s` meets `ok`. -/
def Meets (ok : σ → α → Prop) : σ → List α → Prop
  | _, [] => True
  | s, a :: as => ok s a ∧ ∀ t, step s a = some t → Meets ok t as

/-- Every state of the run from `s` satisfies `I`. -/
def Always (I : σ → Prop) : σ → List α → Prop
  | s, [] => I s
  | s, a :: as => I s ∧ ∀ t, step s a = some t → Always I t as

/-- Whether a given run meets the condition is decided by running it. -/
instance decidableMeets (ok : σ → α → Prop) [∀ s a, Decidable (ok s a)] :
    ∀ s as, Decidable (Meets step ok s as)
  | _, [] => isTrue trivial
  | s, a :: as =>
    match h : step s a with
    | none => decidable_of_iff (ok s a) (by simp [Meets, h])
    | some t =>
      have := decidableMeets ok t as
      decidable_of_iff (ok s a ∧ Meets step ok t as) (by simp [Meets, h])

variable {step}

theorem run_cons {s t : σ} {a : α} {as : List α} :
    run step s (a :: as) = some t ↔ ∃ m, step s a = some m ∧ run step m as = some t :=
  Option.bind_eq_some_iff

theorem run_append {s t : σ} {as bs : List α} :
    run step s (as ++ bs) = some t ↔ ∃ m, run step s as = some m ∧ run step m bs = some t := by
  induction as generalizing s with
  | nil => simp [run]
  | cons a as ih =>
    rw [List.cons_append, run_cons]
    constructor
    · intro h
      obtain ⟨m, hm, h⟩ := h
      obtain ⟨u, hu, h⟩ := ih.mp h
      exact ⟨u, run_cons.mpr ⟨m, hm, hu⟩, h⟩
    · intro h
      obtain ⟨u, hu, h⟩ := h
      obtain ⟨m, hm, hu⟩ := run_cons.mp hu
      exact ⟨m, hm, ih.mpr ⟨u, hu, h⟩⟩

theorem run_snoc {s t : σ} {a : α} {as : List α} :
    run step s (as ++ [a]) = some t ↔ ∃ m, run step s as = some m ∧ step m a = some t := by
  rw [run_append]
  simp [run]

/-- What holds of every state after the step holds of the one there is. -/
theorem forall_step {P : σ → Prop} {s m : σ} {a : α} (hm : step s a = some m) :
    (∀ t, step s a = some t → P t) ↔ P m := by
  constructor
  · intro h
    exact h m hm
  · intro h t ht
    rw [Option.some.inj (ht.symm.trans hm)]
    exact h

theorem meets_cons {ok : σ → α → Prop} {s m : σ} {a : α} {as : List α} (hm : step s a = some m) :
    Meets step ok s (a :: as) ↔ ok s a ∧ Meets step ok m as :=
  and_congr_right fun _ => forall_step hm

theorem always_cons {I : σ → Prop} {s m : σ} {a : α} {as : List α} (hm : step s a = some m) :
    Always step I s (a :: as) ↔ I s ∧ Always step I m as :=
  and_congr_right fun _ => forall_step hm

theorem always_head {I : σ → Prop} {s : σ} {as : List α} (h : Always step I s as) : I s := by
  cases as with
  | nil => exact h
  | cons a as => exact h.1

theorem run_trace {I : List α → σ → Prop} (hstep : ∀ as s a t, I as s → step s a = some t → I (as ++ [a]) t) {s t : σ}
    {as : List α} (h0 : I [] s) (h : run step s as = some t) : I as t := by
  induction as using List.reverseRecOn generalizing t with
  | nil =>
    rw [← Option.some.inj h]
    exact h0
  | append_singleton as a ih =>
    obtain ⟨m, hm, ha⟩ := run_snoc.mp h
    exact hstep as m a t (ih hm) ha

/-- In a run of actions that all satisfy `P`. -/
theorem run_trace_of_forall {I : List α → σ → Prop} {P : α → Prop}
    (hstep : ∀ as s a t, I as s → P a → step s a = some t → I (as ++ [a]) t) {s t : σ} {as : List α} (h0 : I [] s)
    (hP : ∀ a ∈ as, P a) (h : run step s as = some t) : I as t := by
  refine run_trace (I := fun as t => (∀ a ∈ as, P a) → I as t) ?_ (fun _ => h0) h hP
  intro as s a t ih hs hP
  obtain ⟨has, ha⟩ := List.forall_mem_append.mp hP
  exact hstep as s a t (ih has) (ha a (List.mem_singleton.mpr rfl)) hs

theorem run_invariant {I : σ → Prop} (hstep : ∀ s a t, I s → step s a = some t → I t) {s t : σ} {as : List α}
    (h0 : I s) (h : run step s as = some t) : I t :=
  run_trace (I := fun _ => I) (fun _ => hstep) h0 h

theorem run_invariant_of_meets {I : σ → Prop} {ok : σ → α → Prop}
    (hstep : ∀ s a t, I s → ok s a → step s a = some t → I t) {s t : σ} {as : List α} (h0 : I s)
    (hok : Meets step ok s as) (h : run step s as = some t) : I t := by
  induction as generalizing s with
  | nil =>
    rw [← Option.some.inj h]
    exact h0
  | cons a as ih =>
    obtain ⟨m, hm, h⟩ := run_cons.mp h
    exact ih (hstep s a m h0 hok.1 hm) (hok.2 m hm) h

/-- What an invariant implies holds throughout. -/
theorem always_of_meets {I P : σ → Prop} {ok : σ → α → Prop}
    (hstep : ∀ s a t, I s → ok s a → step s a = some t → I t) (himp : ∀ s, I s → P s) {s : σ} {as : List α} (h0 : I s)
    (h : Meets step ok s as) : Always step P s as := by
  induction as generalizing s with
  | nil => exact himp s h0
  | cons a as ih =>
    obtain ⟨ha, has⟩ := h
    exact ⟨himp s h0, fun t ht => ih (hstep s a t h0 ha ht) (has t ht)⟩

/-- A condition on the actions alone. -/
theorem meets_of_forall {ok : α → Prop} {s : σ} {as : List α} (h : ∀ a ∈ as, ok a) : Meets step (fun _ => ok) s as := by
  induction as generalizing s with
  | nil => trivial
  | cons a as ih =>
    obtain ⟨ha, has⟩ := List.forall_mem_cons.mp h
    exact ⟨ha, fun _ _ => ih has⟩

/-- Under an invariant another condition may be checked instead. -/
theorem meets_of_invariant {I : σ → Prop} {ok ok' : σ → α → Prop}
    (hstep : ∀ s a t, I s → ok' s a → step s a = some t → I t) (himp : ∀ s a, I s → ok' s a → ok s a) {s : σ} {as : List α}
    (h0 : I s) (h : Meets step ok' s as) : Meets step ok s as := by
  induction as generalizing s with
  | nil => trivial
  | cons a as ih =>
    obtain ⟨ha, has⟩ := h
    exact ⟨himp s a h0 ha, fun t ht => ih (hstep s a t h0 ha ht) (has t ht)⟩

/-- Where a step is right and keeps `I` if and only if it meets a condition, so it is with the
    steps and states of a run. `J` is what holds anyway. -/
theorem always_and_meets_iff {I J : σ → Prop} {ok cond : σ → α → Prop} (hJ : ∀ s a t, J s → step s a = some t → J t)
    (hstep : ∀ s a t, J s → I s → step s a = some t → (ok s a ∧ I t ↔ cond s a)) {s t : σ} {as : List α} (h0 : I s)
    (hJ0 : J s) (h : run step s as = some t) :
    Always step I s as ∧ Meets step ok s as ↔ Meets step cond s as := by
  induction as generalizing s with
  | nil => exact ⟨fun _ => trivial, fun _ => ⟨h0, trivial⟩⟩
  | cons a as ih =>
    obtain ⟨m, hm, h⟩ := run_cons.mp h
    have hiff := hstep s a m hJ0 h0 hm
    have hJm := hJ s a m hJ0 hm
    rw [always_cons hm, meets_cons hm, meets_cons hm]
    refine ⟨?_, ?_⟩
    · rintro ⟨⟨-, hI⟩, hok, hrest⟩
      have hIm : I m := always_head hI
      exact ⟨hiff.mp ⟨hok, hIm⟩, (ih hIm hJm h).mp ⟨hI, hrest⟩⟩
    · rintro ⟨hcond, hrest⟩
      obtain ⟨hok, hIm⟩ := hiff.mpr hcond
      obtain ⟨hI, hrest⟩ := (ih hIm hJm h).mpr hrest
      exact ⟨⟨h0, hI⟩, hok, hrest⟩

/-- The same of the states alone: the runs that keep `I` throughout are those whose steps all
    meet the condition. -/
theorem always_iff_meets {I J : σ → Prop} {ok : σ → α → Prop} (hJ : ∀ s a t, J s → step s a = some t → J t)
    (hstep : ∀ s a t, J s → I s → step s a = some t → (I t ↔ ok s a)) {s t : σ} {as : List α} (h0 : I s) (hJ0 : J s)
    (h : run step s as = some t) : Always step I s as ↔ Meets step ok s as := by
  have hall : Meets step (fun _ _ => True) s as := meets_of_forall fun _ _ => trivial
  have hboth : ∀ s a t, J s → I s → step s a = some t → (True ∧ I t ↔ ok s a) := by
    intro s a t hJs hIs ht
    rw [true_and]
    exact hstep s a t hJs hIs ht
  rw [← always_and_meets_iff hJ hboth h0 hJ0 h, and_iff_left hall]

end ComClient.Lts
