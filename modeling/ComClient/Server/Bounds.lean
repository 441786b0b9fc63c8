/-
  ComClient.Server.Bounds — any number of threads in `read_byte` and `clear_fifo`.

  `read_byte` clamps its size to what the deque holds, without the lock, and copies in a
  later section. What another call or the clean-up of the handler takes in between is
  missing at the copy.

  - `copies_in_bounds`: a copy stays inside the deque as long as no step leaves it shorter
    than another call has clamped its size to.
  - `two_readers_copy_too_much`: two calls clamp, then both copy.
-/

import ComClient.Server.Fifo

namespace ComClient.Server.TCPServer

open ComClient.Lts

variable {s t : TCPServer} {as : List Act} {i : Socket}

/-! ## What a step leaves -/

/-- How many bytes of the FIFO of `i` the step leaves there. -/
def leaves (s : TCPServer) (i : Socket) : Act → Nat
  | .handler _ (.data _) => (s.reg.fifo i).length
  | .user u .go =>
    match s.users u with
    | .copy c n => if c.i = i ∧ c.erase = true then (s.reg.fifo i).length - n else (s.reg.fifo i).length
    | _ => (s.reg.fifo i).length
  | a => if s.touches a = some i then 0 else (s.reg.fifo i).length

/-- The step leaves at least the bytes that another call has clamped its size to. -/
def Leaves (s : TCPServer) (a : Act) : Prop :=
  ∀ u c n, s.users u = .copy c n → a = .user u .go ∨ n ≤ s.leaves c.i a

/-- Every call that is about to copy finds that many bytes. -/
def Fits (s : TCPServer) : Prop := ∀ u c n, s.users u = .copy c n → n ≤ (s.reg.fifo c.i).length

theorem leaves_le_length (s : TCPServer) (i : Socket) (a : Act) : s.leaves i a ≤ (s.reg.fifo i).length := by
  unfold leaves
  split
  · exact Nat.le_refl _
  · split
    · split
      · exact Nat.sub_le _ _
      · exact Nat.le_refl _
    · exact Nat.le_refl _
  · split
    · exact Nat.zero_le _
    · exact Nat.le_refl _

theorem leaves_le {a : Act} (hs : s.step a = some t) : s.leaves i a ≤ (t.reg.fifo i).length := by
  by_cases htouch : s.touches a = some i
  swap
  · rw [fifo_untouched hs htouch]
    exact leaves_le_length s i a
  obtain ⟨-, hs⟩ := step_cases hs
  cases a with
  | accept a => exact (if_pos htouch).trans_le (Nat.zero_le _)
  | stop a => cases htouch
  | world a => cases htouch
  | handler tid a =>
    cases a with
    | go => exact (if_pos htouch).trans_le (Nat.zero_le _)
    | ended => cases htouch
    | data n =>
      cases hs with
      | data fd n c hh hc h0 hn hlen =>
        show _ ≤ ((s.reg.append fd _).fifo i).length
        simp only [touches, hh, Option.map_some, Option.some.injEq] at htouch
        rw [Registry.fifo_append, if_pos htouch.symm, htouch, List.length_append]
        exact Nat.le_add_right _ _
  | user u a =>
    cases a with
    | read c => cases htouch
    | available j => cases htouch
    | clear j => exact (if_pos htouch).trans_le (Nat.zero_le _)
    | go =>
      cases hs with
      | copy c n reg bytes hu hc =>
        obtain ⟨hn, -, hfifo⟩ := Registry.copy_eq_some _ _ _ hc
        have he : c.i = i ∧ c.erase = true := by
          simpa [touches, hu, and_comm] using htouch
        show s.leaves i _ ≤ (reg.fifo i).length
        simp only [leaves, hu, if_pos he]
        rw [hfifo i, if_pos ⟨he.1.symm, he.2⟩, List.length_drop, he.1]
      | outOfBounds c n hu hc => exact leaves_le_length s i _
      | sample c hu => simp [touches, hu] at htouch
      | wait c hu => simp [touches, hu] at htouch
      | clamp c hu => simp [touches, hu] at htouch
      | sampled j hu => simp [touches, hu] at htouch

theorem copy_of_fits {u : Tid} {c : ReadCall} {n : Nat} (h : Fits s) (hu : s.users u = .copy c n) :
    s.reg.copy c.i n c.erase ≠ none := by
  simp [Registry.copy, h u c n hu]

/-- A call comes to its copy through the clamp only, with no more than there is. -/
theorem clamped_or_before {a : Act} (h : Fits s) (hs : s.step a = some t) {u : Tid} {c : ReadCall} {n : Nat}
    (hu : t.users u = .copy c n) : n ≤ (t.reg.fifo c.i).length ∨ (s.users u = .copy c n ∧ a ≠ .user u .go) := by
  rcases user_or_not a with ⟨v, b, rfl⟩ | huser
  swap
  · exact Or.inr ⟨users_of_step hs huser ▸ hu, huser u .go⟩
  obtain ⟨-, hs⟩ := step_cases hs
  by_cases e : u = v
  swap
  · refine Or.inr ⟨UserStep.others hs e ▸ hu, ?_⟩
    intro he
    cases he
    exact e rfl
  subst e
  cases hs with
  | clamp c' hu' =>
    cases (upd_same _ _ _).symm.trans hu
    left
    show _ ≤ ((s.reg.clamp c.i c.size).1.fifo c.i).length
    rw [Registry.fifo_clamp]
    exact Nat.min_le_right _ _
  | outOfBounds c' n' hu' hc => exact absurd hc (copy_of_fits h hu')
  | readRefused c' hu' => cases hu'.symm.trans hu
  | availableRefused j hu' => cases hu'.symm.trans hu
  | clear j hu' => cases hu'.symm.trans hu
  | read c' hu' hc => cases (upd_same _ _ _).symm.trans hu
  | available j hu' hc => cases (upd_same _ _ _).symm.trans hu
  | copy c' n' reg bytes hu' hc => cases (upd_same _ _ _).symm.trans hu
  | sampled j hu' => cases (upd_same _ _ _).symm.trans hu
  | sample c' hu' =>
    have hpc := (upd_same _ _ _).symm.trans hu
    split at hpc <;> cases hpc
  | wait c' hu' =>
    have hpc := (upd_same _ _ _).symm.trans hu
    split at hpc <;> cases hpc

theorem fits_step {a : Act} (h : Fits s) (ha : Leaves s a) (hs : s.step a = some t) : Fits t := by
  intro u c n hu
  rcases clamped_or_before h hs hu with hle | ⟨hu', hne⟩
  · exact hle
  · exact Nat.le_trans ((ha u c n hu').resolve_left hne) (leaves_le hs)

theorem in_bounds_of_fits {a : Act} (h : Fits s) (hs : s.step a = some t) : t.fault ≠ some .outOfBounds := by
  obtain ⟨hf, hs⟩ := step_cases hs
  have hnot : s.fault ≠ some .outOfBounds := by rw [hf]; exact nofun
  cases a with
  | accept a =>
    cases hs
    case terminate => exact nofun
    all_goals exact hnot
  | handler tid a => rw [HandlerStep.fault hs]; exact hnot
  | stop a => cases hs <;> exact hnot
  | user u a =>
    cases hs
    case outOfBounds c n hu hc => exact absurd hc (copy_of_fits h hu)
    all_goals exact hnot
  | world a => rw [WorldStep.fault hs]; exact hnot

/-- In every run in which no step (an erasing read, a `clear_fifo`, the clean-up of the
    handler) leaves a FIFO shorter than another call has clamped its size to, every copy
    stays inside the deque. -/
theorem copies_in_bounds (h0 : Started s) (hrun : run step s as = some t) (hok : Meets step Leaves s as) :
    t.fault ≠ some .outOfBounds ∧ ∀ u c n, t.users u = .copy c n → n ≤ (t.reg.fifo c.i).length := by
  have hboth : Fits t ∧ t.fault ≠ some .outOfBounds := by
    refine run_invariant_of_meets (I := fun s => Fits s ∧ s.fault ≠ some .outOfBounds) ?_ ?_ hok hrun
    · intro s a t h ha hs
      exact ⟨fits_step h.1 ha hs, in_bounds_of_fits h.1 hs⟩
    · constructor
      · intro u c n hu
        rw [h0.users] at hu
        cases hu
      · rw [h0.fault]
        exact nofun
  exact ⟨hboth.2, hboth.1⟩

/-! ## Two callers -/

/-- `Leaves`, for the call of `u`. -/
def leavesFor (s : TCPServer) (a : Act) (u : Tid) : Bool :=
  match s.users u with
  | .copy c n => a == .user u .go || n ≤ s.leaves c.i a
  | _ => true

/-- Only the threads 0 and 1 call. -/
def byTwo : Act → Bool
  | .user u _ => u < 2
  | _ => true

/-- `Leaves` in a run in which two threads call, which can be evaluated. -/
def LeavesTwo (s : TCPServer) (a : Act) : Prop := byTwo a = true ∧ s.leavesFor a 0 = true ∧ s.leavesFor a 1 = true

instance (s : TCPServer) (a : Act) : Decidable (LeavesTwo s a) := inferInstanceAs (Decidable (_ ∧ _ ∧ _))

theorem leaves_of_leavesFor {a : Act} {u : Tid} (h : s.leavesFor a u = true) {c : ReadCall} {n : Nat}
    (hu : s.users u = .copy c n) : a = .user u .go ∨ n ≤ s.leaves c.i a := by
  simpa [leavesFor, hu] using h

theorem meets_leaves_of_two (h0 : Started s) (h : Meets step LeavesTwo s as) : Meets step Leaves s as := by
  refine meets_of_invariant (I := fun s => ∀ u, 2 ≤ u → s.users u = .idle) ?_ ?_ (fun u _ => h0.users u) h
  · intro s a t hidle ha hs u hu
    rcases user_or_not a with ⟨v, b, rfl⟩ | huser
    · have hv : v < 2 := of_decide_eq_true ha.1
      obtain ⟨-, hs⟩ := step_cases hs
      rw [UserStep.others hs (Nat.ne_of_gt (Nat.lt_of_lt_of_le hv hu))]
      exact hidle u hu
    · rw [users_of_step hs huser]
      exact hidle u hu
  · intro s a hidle ha u c n hu
    have hlt : u < 2 := by
      by_contra hge
      rw [hidle u (Nat.le_of_not_lt hge)] at hu
      cases hu
    rcases Nat.le_one_iff_eq_zero_or_eq_one.mp (Nat.le_of_lt_succ hlt) with rfl | rfl
    · exact leaves_of_leavesFor ha.2.1 hu
    · exact leaves_of_leavesFor ha.2.2 hu

/-- A client has sent one byte, and two calls ask for it. -/
def oneByteForTwo : List Act :=
  connect 4 ++ [.accept .go, .handler 0 .go, .world (.sends 4 [7]), .handler 0 (.data 1), .user 0 (.read ⟨4, 1, false, true⟩),
    .user 1 (.read ⟨4, 1, false, true⟩), .user 0 .go, .user 1 .go]

def oneAfterAnother : List Act := oneByteForTwo ++ [.user 0 .go, .user 0 .go, .user 1 .go]

theorem copies_in_bounds_one_after_another :
    ∃ t, run step started oneAfterAnother = some t ∧ t.users 1 = .copy ⟨4, 1, false, true⟩ 0 ∧
      t.fault ≠ some .outOfBounds ∧ ∀ u c n, t.users u = .copy c n → n ≤ (t.reg.fifo c.i).length := by
  have hrun : (run step started oneAfterAnother).map (·.users 1) = some (.copy ⟨4, 1, false, true⟩ 0) := by
    decide +kernel
  obtain ⟨t, ht, hu⟩ := Option.map_eq_some_iff.mp hrun
  have hok : Meets step LeavesTwo started oneAfterAnother := by decide +kernel
  exact ⟨t, ht, hu, copies_in_bounds started_started ht (meets_leaves_of_two started_started hok)⟩

/-- Both calls clamp their size to one, and both copy: the second finds the deque empty. -/
theorem two_readers_copy_too_much :
    (run step started (oneByteForTwo ++ [.user 0 .go, .user 1 .go, .user 0 .go])).map
        (fun t => (t.users 1, t.reg.fifo 4)) = some (.copy ⟨4, 1, false, true⟩ 1, []) ∧
      (run step started (oneByteForTwo ++ [.user 0 .go, .user 1 .go, .user 0 .go, .user 1 .go])).map (·.fault) =
        some (some .outOfBounds) := by
  refine ⟨by decide +kernel, by decide +kernel⟩

end ComClient.Server.TCPServer
