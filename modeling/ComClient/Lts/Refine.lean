/-
  ComClient.Lts.Refine — a transition system whose steps are runs of another one.

  `acts s a` are the actions of the abstract system that the step `a` from `s` stands for,
  and `abs s` is the abstract state. If every step is a run of its actions, so is every
  run (`run_refines`); and what a run leaves in a log is what its abstract actions leave
  there, if that is so of every step (`flatMap_trace`).
-/

import ComClient.Lts.Run

namespace ComClient.Lts

variable {σ τ α β γ : Type} (step : σ → α → Option σ) {step' : τ → β → Option τ} (acts : σ → α → List β)

/-- The abstract actions of a run. -/
def trace : σ → List α → List β
  | _, [] => []
  | s, a :: as => acts s a ++ (step s a).elim [] fun t => trace t as

variable {step acts}

theorem trace_cons {s m : σ} {a : α} (as : List α) (hm : step s a = some m) :
    trace step acts s (a :: as) = acts s a ++ trace step acts m as := by
  rw [trace, hm]
  rfl

theorem run_refines {abs : σ → τ} (hstep : ∀ s a t, step s a = some t → run step' (abs s) (acts s a) = some (abs t))
    {s t : σ} {as : List α} (h : run step s as = some t) :
    run step' (abs s) (trace step acts s as) = some (abs t) := by
  induction as generalizing s with
  | nil => exact congrArg _ (congrArg abs (Option.some.inj h))
  | cons a as ih =>
    obtain ⟨m, hm, h⟩ := run_cons.mp h
    rw [trace_cons as hm]
    exact run_append.mpr ⟨abs m, hstep s a m hm, ih h⟩

theorem flatMap_trace {f : β → List γ} {log : σ → List γ}
    (hstep : ∀ s a t, step s a = some t → log t = log s ++ (acts s a).flatMap f) {s t : σ} {as : List α}
    (h : run step s as = some t) : log t = log s ++ (trace step acts s as).flatMap f := by
  induction as generalizing s with
  | nil =>
    rw [Option.some.inj h]
    exact (List.append_nil _).symm
  | cons a as ih =>
    obtain ⟨m, hm, h⟩ := run_cons.mp h
    rw [trace_cons as hm, List.flatMap_append, ← List.append_assoc, ← hstep s a m hm]
    exact ih h

/-- What the abstract actions amount to, read off the steps. -/
theorem flatMap_trace_eq {f : β → List γ} {g : α → List γ}
    (hstep : ∀ s a t, step s a = some t → (acts s a).flatMap f = g a) {s t : σ} {as : List α}
    (h : run step s as = some t) : (trace step acts s as).flatMap f = as.flatMap g := by
  induction as generalizing s with
  | nil => rfl
  | cons a as ih =>
    obtain ⟨m, hm, h⟩ := run_cons.mp h
    rw [trace_cons as hm, List.flatMap_append, List.flatMap_cons, hstep s a m hm, ih h]

theorem meets_append {ok : σ → α → Prop} {s m : σ} {as bs : List α} (h : run step s as = some m) :
    Meets step ok s (as ++ bs) ↔ Meets step ok s as ∧ Meets step ok m bs := by
  induction as generalizing s with
  | nil =>
    rw [Option.some.inj h]
    exact (and_iff_right trivial).symm
  | cons a as ih =>
    obtain ⟨u, hu, h⟩ := run_cons.mp h
    rw [List.cons_append, meets_cons hu, meets_cons hu, ih h, and_assoc]

theorem meets_and {ok ok' : σ → α → Prop} {s : σ} {as : List α} :
    Meets step (fun s a => ok s a ∧ ok' s a) s as ↔ Meets step ok s as ∧ Meets step ok' s as := by
  induction as generalizing s with
  | nil => exact ⟨fun _ => ⟨trivial, trivial⟩, fun _ => trivial⟩
  | cons a as ih =>
    constructor
    · intro h
      obtain ⟨⟨hok, hok'⟩, hrest⟩ := h
      exact ⟨⟨hok, fun t ht => (ih.mp (hrest t ht)).1⟩, hok', fun t ht => (ih.mp (hrest t ht)).2⟩
    · intro h
      obtain ⟨⟨hok, hrest⟩, hok', hrest'⟩ := h
      exact ⟨⟨hok, hok'⟩, fun t ht => ih.mpr ⟨hrest t ht, hrest' t ht⟩⟩

/-- A condition on the abstract actions, read off the steps. -/
theorem meets_trace {abs : σ → τ} (hstep : ∀ s a t, step s a = some t → run step' (abs s) (acts s a) = some (abs t))
    {ok : τ → β → Prop} {ok' : σ → α → Prop} (hok : ∀ s a, Meets step' ok (abs s) (acts s a) ↔ ok' s a) {s t : σ}
    {as : List α} (h : run step s as = some t) :
    Meets step' ok (abs s) (trace step acts s as) ↔ Meets step ok' s as := by
  induction as generalizing s with
  | nil => exact Iff.rfl
  | cons a as ih =>
    obtain ⟨m, hm, h⟩ := run_cons.mp h
    rw [trace_cons as hm, meets_cons hm, meets_append (hstep s a m hm), hok, ih h]

end ComClient.Lts
