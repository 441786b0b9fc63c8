/-
  ComClient.Lts.Rank — how many of the steps of a run can be moves, if every move lowers a
  rank and every other step raises it by what it costs at most (`counted_add_rank_le_costs`);
  in particular if nothing raises it (`counted_add_rank_le`).
-/

import ComClient.Lts.Run

namespace ComClient.Lts

variable {σ α : Type} (step : σ → α → Option σ) (moves : σ → α → Bool)

/-- The number of moves in the run from `s`. -/
def counted : σ → List α → Nat
  | _, [] => 0
  | s, a :: as => (if moves s a then 1 else 0) + (step s a).elim 0 fun t => counted t as

/-- A step keeps the invariant and does not raise the rank, and a move lowers it. -/
structure Lowers (I : σ → Prop) (rank : σ → Nat) (s : σ) (a : α) (t : σ) : Prop where
  keeps : I t
  le : rank t ≤ rank s
  lt : moves s a = true → rank t < rank s

variable {step moves}

theorem counted_cons {s m : σ} {a : α} (as : List α) (hm : step s a = some m) :
    counted step moves s (a :: as) = (if moves s a then 1 else 0) + counted step moves m as := by
  rw [counted, hm]
  rfl

/-- The condition is on the actions; what a step costs is seen from its action, too. -/
theorem counted_add_rank_le_costs {I : σ → Prop} {ok : α → Prop} {rank : σ → Nat} {cost : α → Nat}
    (hstep : ∀ s a t, I s → ok a → step s a = some t → I t ∧ (if moves s a then 1 else 0) + rank t ≤ rank s + cost a)
    {s t : σ} {as : List α} (h0 : I s) (hok : ∀ a ∈ as, ok a) (h : run step s as = some t) :
    counted step moves s as + rank t ≤ rank s + (as.map cost).sum := by
  induction as generalizing s with
  | nil =>
    rw [Option.some.inj h, counted, List.map_nil, List.sum_nil, Nat.zero_add, Nat.add_zero]
  | cons a as ih =>
    obtain ⟨m, hm, h⟩ := run_cons.mp h
    obtain ⟨ha, has⟩ := List.forall_mem_cons.mp hok
    obtain ⟨hI, hle⟩ := hstep s a m h0 ha hm
    have hrest := ih hI has h
    rw [counted_cons as hm, List.map_cons, List.sum_cons]
    omega

theorem counted_add_rank_le {I : σ → Prop} {rank : σ → Nat}
    (hstep : ∀ s a t, I s → step s a = some t → Lowers moves I rank s a t) {s t : σ} {as : List α} (h0 : I s)
    (h : run step s as = some t) : counted step moves s as + rank t ≤ rank s := by
  have hcosts : ∀ s a t, I s → True → step s a = some t → I t ∧ (if moves s a then 1 else 0) + rank t ≤ rank s + 0 := by
    intro s a t hI _ hs
    have hlow := hstep s a t hI hs
    refine ⟨hlow.keeps, ?_⟩
    split
    · rename_i hmove
      have hlt := hlow.lt hmove
      omega
    · have hle := hlow.le
      omega
  have hall := counted_add_rank_le_costs hcosts h0 (fun _ _ => trivial) h
  rwa [List.map_const', List.sum_replicate, smul_zero, Nat.add_zero] at hall

end ComClient.Lts
