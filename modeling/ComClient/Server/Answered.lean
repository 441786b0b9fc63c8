/-
  ComClient.Server.Answered — when a blocking `read_byte` returns, and with what.

  While one call waits, nobody else takes from its FIFO, so what is in it and in flight only
  grows at its end (`ahead_step`). Once the FIFO holds what the call wants, each of its own
  steps brings it closer to its end (`stepsLeft`), however the other threads interleave.

  - `blocking_read_answered`: a call whose bytes were in the FIFO or in flight returns within
    three of its steps after the last of them has been received, with those bytes.
-/

import ComClient.Server.Drain
import ComClient.Server.ReadByte

namespace ComClient.Server.TCPServer

open ComClient.Transport (Byte)
open ComClient.Lts

variable {s t m v : TCPServer} {as bs cs : List Act} {i : Socket} {u : Tid} {c : ReadCall} {consumer : Socket → Tid}

/-- What the readers of the socket will get next. -/
def ahead (s : TCPServer) (i : Socket) : List Byte := s.reg.fifo i ++ s.inFlight i

/-- The socket has one consumer, and nothing of it is lost. -/
structure Orderly (consumer : Socket → Tid) (i : Socket) (s : TCPServer) (a : Act) : Prop where
  one : OneConsumer consumer a
  drops : DropsNothing i s a
  loses : LosesNothing i s a

/-! ## The call -/

/-- The steps of its own that a call has before it, if it finds all it wants. -/
def stepsLeft : UserPc → Nat
  | .sample _ => 3
  | .wait _ => 3
  | .clamp _ => 2
  | .copy _ _ => 1
  | _ => 0

/-- The thread is inside the call. -/
def InCall (s : TCPServer) (u : Tid) (c : ReadCall) : Prop :=
  s.InLoop u c ∨ s.users u = .clamp c ∨ ∃ n, s.users u = .copy c n

/-- The step is the call's last. -/
def Copies (s : TCPServer) (u : Tid) (c : ReadCall) (a : Act) : Prop := a = .user u .go ∧ ∃ n, s.users u = .copy c n

theorem inCall_iff : InCall s u c ↔
    s.users u = .sample c ∨ s.users u = .wait c ∨ s.users u = .clamp c ∨ ∃ n, s.users u = .copy c n := or_assoc

theorem socketOf_inCall (h : InCall s u c) : socketOf (s.users u) = some c.i := by
  rcases inCall_iff.mp h with h | h | h | ⟨n, h⟩
  all_goals rw [h]; rfl

theorem copy_inCall {d : ReadCall} {n : Nat} (h : InCall s u c) (hu : s.users u = .copy d n) : d = c := by
  rcases inCall_iff.mp h with h | h | h | ⟨k, h⟩
  all_goals rw [h] at hu; cases hu
  rfl

/-- Where the call is before its copy. -/
theorem pc_of_inCall {pc : UserPc} (h : InCall s u c) (hno : ¬ Copies s u c (.user u .go)) (hpc : s.users u = pc) :
    pc = .sample c ∨ pc = .wait c ∨ pc = .clamp c := by
  subst hpc
  rcases inCall_iff.mp h with h | h | h | ⟨n, h⟩
  · exact Or.inl h
  · exact Or.inr (Or.inl h)
  · exact Or.inr (Or.inr h)
  · exact absurd ⟨rfl, n, h⟩ hno

/-! ## What is ahead -/

theorem ahead_step {a : Act} (hd : DropsNothing i s a) (hl : LosesNothing i s a) (hs : s.step a = some t) :
    (s.boxActs a).flatMap (Mailbox.takes i) ++ t.ahead i = s.ahead i ++ uploads i a := by
  have hbox := (Mailbox.takes_eq_iff (boxes_step s a t hs) i).mpr ((keeps_iff i s a).mpr hd)
  have hkernel := conserved_in_flight i hs hl
  rw [(seen_step i s a t hs).1, List.append_assoc, List.append_assoc, List.append_cancel_left_eq] at hkernel
  unfold ahead
  rw [← List.append_assoc, ← hbox, List.append_assoc, List.append_assoc, hkernel]

/-- Nothing is taken but by the copy of the call. -/
theorem takes_none {a : Act} (h : Readers consumer c.i s) (hin : InCall s u c) (ha : ¬ Copies s u c a) :
    (s.boxActs a).flatMap (Mailbox.takes c.i) = [] := by
  rcases user_or_not a with ⟨w, b, rfl⟩ | huser
  swap
  · exact takes_boxActs huser
  cases b with
  | go =>
    simp only [boxActs]
    split
    · rename_i d n hw
      by_cases hi : d.i = c.i
      · have hown := h.own w (by rw [hw]; exact congrArg some hi)
        have hwu : w = u := hown.trans (h.own u (socketOf_inCall hin)).symm
        subst hwu
        exact absurd ⟨rfl, n, copy_inCall hin hw ▸ hw⟩ ha
      · split <;> simp [Mailbox.takes, hi]
    · rfl
  | read c => rfl
  | available j => rfl
  | clear j => simp [boxActs, Mailbox.takes]

/-- The log only grows. -/
theorem history_grows {a : Act} (hs : s.step a = some t) : s.history <+: t.history := by
  have happ : ∀ es, s.history <+: s.history ++ es := fun es => List.prefix_append _ es
  obtain ⟨-, hs⟩ := step_cases hs
  cases a with
  | accept a =>
    cases hs
    case notify => exact happ _
    all_goals exact List.prefix_rfl
  | handler tid a =>
    cases hs
    case data => exact happ _
    case callback => exact happ _
    all_goals exact List.prefix_rfl
  | stop a => cases hs <;> exact List.prefix_rfl
  | user w a =>
    cases hs
    case copy => exact happ _
    case readRefused => exact happ _
    case availableRefused => exact happ _
    case sampled => exact happ _
    all_goals exact List.prefix_rfl
  | world a => cases hs <;> exact List.prefix_rfl

/-- The call is on, and what it wants is ahead. -/
structure Waits (consumer : Socket → Tid) (u : Tid) (c : ReadCall) (bytes : List Byte) (h : List Event) (s : TCPServer) :
    Prop where
  readers : Readers consumer c.i s
  inCall : InCall s u c
  ahead : bytes <+: s.ahead c.i
  since : h <+: s.history

/-- It has returned, with the bytes. -/
def Returned (c : ReadCall) (bytes : List Byte) (h : List Event) (s : TCPServer) : Prop :=
  ∃ es es', s.history = h ++ es ++ .read c bytes :: es'

theorem returned_step {bytes : List Byte} {h : List Event} {a : Act} (hret : Returned c bytes h s) (hs : s.step a = some t) :
    Returned c bytes h t := by
  obtain ⟨es, es', hist⟩ := hret
  obtain ⟨more, hmore⟩ := history_grows hs
  refine ⟨es, es' ++ more, ?_⟩
  rw [← hmore, hist, List.append_assoc, List.cons_append]

/-- Where a step of the call takes it, unless it is its copy. -/
theorem inCall_go (hin : InCall s u c) (hno : ¬ Copies s u c (.user u .go)) (hs : UserStep s u .go t) : InCall t u c := by
  have hloop : ∀ (p : Prop) [Decidable p] (r : Registry),
      InCall ({ s with reg := r }.setUser u (if p then .wait c else .clamp c)) u c := by
    intro p _ r
    unfold InCall InLoop setUser
    by_cases hp : p
    · simp [hp]
    · simp [hp]
  cases hs with
  | sample d hu =>
    rcases pc_of_inCall hin hno hu with h | h | h
    · cases h
      exact hloop _ _
    · cases h
    · cases h
  | wait d hu =>
    rcases pc_of_inCall hin hno hu with h | h | h
    · cases h
    · cases h
      exact hloop _ _
    · cases h
  | clamp d hu =>
    rcases pc_of_inCall hin hno hu with h | h | h
    · cases h
    · cases h
    · cases h
      exact Or.inr (Or.inr ⟨_, upd_same _ _ _⟩)
  | copy d n reg bytes hu hc => rcases pc_of_inCall hin hno hu with h | h | h <;> cases h
  | outOfBounds d n hu hc => rcases pc_of_inCall hin hno hu with h | h | h <;> cases h
  | sampled j hu => rcases pc_of_inCall hin hno hu with h | h | h <;> cases h

/-- A thread that is inside a call makes no other. -/
theorem go_of_inCall {b : UserAct} (hin : InCall s u c) (hs : s.step (.user u b) = some t) : b = .go := by
  have hbusy : s.users u ≠ .idle := by
    intro hidle
    have h := socketOf_inCall hin
    rw [hidle] at h
    cases h
  obtain ⟨-, hs⟩ := step_cases hs
  cases hs with
  | read d hu hc => exact absurd hu hbusy
  | readRefused d hu => exact absurd hu hbusy
  | available j hu hc => exact absurd hu hbusy
  | availableRefused j hu => exact absurd hu hbusy
  | clear j hu => exact absurd hu hbusy
  | _ => rfl

/-- What a blocking call copies is what was ahead. -/
theorem returned_of_copy {bytes : List Byte} {h : List Event} {n : Nat} (hb : c.blocking = true)
    (hlen : bytes.length = c.size) (hw : Waits consumer u c bytes h s) (hu : s.users u = .copy c n)
    (hs : s.step (.user u .go) = some t) : Returned c bytes h t := by
  have hlearnt := hw.readers.learnt u (socketOf_inCall hw.inCall)
  rw [hu] at hlearnt
  obtain ⟨copied, hhist, hprefix, hsize, -⟩ := copied_of_learnt hu hlearnt hs
  have hsame : copied = bytes := by
    have hpre : copied <+: s.ahead c.i := hprefix.trans (List.prefix_append _ _)
    refine (List.prefix_of_prefix_length_le hpre hw.ahead ?_).eq_of_length ?_
    · rw [hsize hb, hlen]
    · rw [hsize hb, hlen]
  obtain ⟨es, hes⟩ := hw.since
  refine ⟨es, [], ?_⟩
  rw [hhist, hsame, hes]

theorem users_of_other {a : Act} (hs : s.step a = some t) (ha : ∀ b, a ≠ .user u b) : t.users u = s.users u := by
  rcases user_or_not a with ⟨w, b, rfl⟩ | huser
  · have hne : u ≠ w := by
      intro heq
      subst heq
      exact ha b rfl
    obtain ⟨-, hs⟩ := step_cases hs
    exact UserStep.others hs hne
  · rw [users_of_step hs huser]

theorem waits_step {bytes : List Byte} {h : List Event} {a : Act} (hb : c.blocking = true) (hlen : bytes.length = c.size)
    (hw : Waits consumer u c bytes h s) (ha : Orderly consumer c.i s a) (hs : s.step a = some t) :
    Waits consumer u c bytes h t ∨ Returned c bytes h t := by
  by_cases hcopy : Copies s u c a
  · obtain ⟨rfl, n, hu⟩ := hcopy
    exact Or.inr (returned_of_copy hb hlen hw hu hs)
  left
  have hstep := ahead_step ha.drops ha.loses hs
  rw [takes_none hw.readers hw.inCall hcopy, List.nil_append] at hstep
  refine ⟨?_, ?_, ?_, hw.since.trans (history_grows hs)⟩
  · rcases user_or_not a with ⟨w, b, rfl⟩ | huser
    · obtain ⟨-, hs⟩ := step_cases hs
      exact readers_userStep hw.readers ha.one hs
    · exact readers_frame hw.readers (users_of_step hs huser) (fifo_grows_of_kept huser ha.drops hs)
  · by_cases hmine : ∃ b, a = .user u b
    · obtain ⟨b, rfl⟩ := hmine
      have hgo := go_of_inCall hw.inCall hs
      subst hgo
      obtain ⟨-, hs⟩ := step_cases hs
      exact inCall_go hw.inCall hcopy hs
    · have hin := hw.inCall
      unfold InCall InLoop at hin ⊢
      rw [users_of_other hs fun b hb => hmine ⟨b, hb⟩]
      exact hin
  · rw [hstep]
    exact hw.ahead.trans (List.prefix_append _ _)

theorem waits_run {bytes : List Byte} {h : List Event} (hb : c.blocking = true) (hlen : bytes.length = c.size)
    (hw : Waits consumer u c bytes h s) (ha : Meets step (Orderly consumer c.i) s as) (hrun : run step s as = some t) :
    Waits consumer u c bytes h t ∨ Returned c bytes h t := by
  refine run_invariant_of_meets (I := fun s => Waits consumer u c bytes h s ∨ Returned c bytes h s) ?_ (Or.inl hw) ha hrun
  intro s a t hboth ha hs
  rcases hboth with hw | hret
  · exact waits_step hb hlen hw ha hs
  · exact Or.inr (returned_step hret hs)

/-! ## Its last steps -/

/-- All that the call wants has been received. -/
structure Ready (consumer : Socket → Tid) (u : Tid) (c : ReadCall) (bytes : List Byte) (h : List Event) (s : TCPServer) :
    Prop where
  waits : Waits consumer u c bytes h s
  there : c.size ≤ (s.reg.fifo c.i).length

theorem stepsLeft_pos (h : InCall s u c) : 0 < stepsLeft (s.users u) := by
  rcases inCall_iff.mp h with h | h | h | ⟨n, h⟩
  all_goals rw [h]; exact Nat.succ_pos _

theorem stepsLeft_le (h : InCall s u c) : stepsLeft (s.users u) ≤ 3 := by
  rcases inCall_iff.mp h with h | h | h | ⟨n, h⟩
  all_goals rw [h]; simp [stepsLeft]

/-- With enough in the FIFO the loop is left at its next sample. -/
theorem stepsLeft_go (hin : InCall s u c) (hthere : c.size ≤ (s.reg.fifo c.i).length) (hno : ¬ Copies s u c (.user u .go))
    (hs : UserStep s u .go t) : stepsLeft (t.users u) + 1 ≤ stepsLeft (s.users u) := by
  have hsample : ¬ (s.reg.sample c.i).2 < c.size := Nat.not_lt.mpr hthere
  cases hs with
  | sample d hu =>
    obtain rfl : d = c := by
      rcases pc_of_inCall hin hno hu with h | h | h <;> cases h
      rfl
    simp [setUser, stepsLeft, hu, hsample]
  | wait d hu =>
    obtain rfl : d = c := by
      rcases pc_of_inCall hin hno hu with h | h | h <;> cases h
      rfl
    simp [setUser, stepsLeft, hu, hsample]
  | clamp d hu => simp [setUser, stepsLeft, hu]
  | copy d n reg bytes hu hc => rcases pc_of_inCall hin hno hu with h | h | h <;> cases h
  | outOfBounds d n hu hc => rcases pc_of_inCall hin hno hu with h | h | h <;> cases h
  | sampled j hu => rcases pc_of_inCall hin hno hu with h | h | h <;> cases h

theorem ready_step {bytes : List Byte} {h : List Event} {a : Act} (hb : c.blocking = true) (hlen : bytes.length = c.size)
    (hr : Ready consumer u c bytes h s) (ha : Orderly consumer c.i s a) (hs : s.step a = some t) :
    Returned c bytes h t ∨ (Ready consumer u c bytes h t ∧
      stepsLeft (t.users u) + (if a = .user u .go then 1 else 0) ≤ stepsLeft (s.users u)) := by
  by_cases hcopy : Copies s u c a
  · obtain ⟨rfl, n, hu⟩ := hcopy
    exact Or.inl (returned_of_copy hb hlen hr.waits hu hs)
  rcases waits_step hb hlen hr.waits ha hs with hw | hret
  swap
  · exact Or.inl hret
  refine Or.inr ⟨⟨hw, ?_⟩, ?_⟩
  · have hbox := (Mailbox.takes_eq_iff (boxes_step s a t hs) c.i).mpr ((keeps_iff c.i s a).mpr ha.drops)
    rw [takes_none hr.waits.readers hr.waits.inCall hcopy, List.nil_append] at hbox
    rw [← hbox, List.length_append]
    exact Nat.le_add_right_of_le hr.there
  · by_cases hmine : ∃ b, a = .user u b
    · obtain ⟨b, rfl⟩ := hmine
      have hgo := go_of_inCall hr.waits.inCall hs
      subst hgo
      obtain ⟨-, hs⟩ := step_cases hs
      rw [if_pos rfl]
      exact stepsLeft_go hr.waits.inCall hr.there hcopy hs
    · have hother : ∀ b, a ≠ .user u b := fun b hb => hmine ⟨b, hb⟩
      rw [users_of_other hs hother, if_neg (hother .go)]
      exact Nat.le_refl _

theorem ready_run {bytes : List Byte} {h : List Event} (hb : c.blocking = true) (hlen : bytes.length = c.size)
    (hr : Ready consumer u c bytes h s) (ha : Meets step (Orderly consumer c.i) s as) (hrun : run step s as = some t)
    (hcount : stepsLeft (s.users u) ≤ as.count (.user u .go)) : Returned c bytes h t := by
  induction as generalizing s with
  | nil =>
    have hpos := stepsLeft_pos hr.waits.inCall
    rw [List.count_nil] at hcount
    omega
  | cons a as ih =>
    obtain ⟨m, hm, hrun⟩ := run_cons.mp hrun
    obtain ⟨hok, has⟩ := (meets_cons hm).mp ha
    rcases ready_step hb hlen hr hok hm with hret | ⟨hready, hle⟩
    · exact run_invariant (fun _ _ _ => returned_step) hret hrun
    · refine ih hready has hrun ?_
      rw [List.count_cons] at hcount
      simp only [beq_iff_eq] at hcount
      omega

/-- A blocking call that waits on a socket with one consumer, of which nothing is lost, while
    all it wants is in the FIFO or in flight: once nothing is in flight any more, three
    more steps of its thread see it return, with these bytes, whatever else happens. -/
theorem blocking_read_answered (h0 : Started s) (hone : ∀ a ∈ as ++ (bs ++ cs), OneConsumer consumer a)
    (hkept : Meets step (DropsNothing c.i) s (as ++ (bs ++ cs))) (hrun : run step s as = some t) (hb : c.blocking = true)
    (hcall : t.InLoop u c) (hsize : c.size ≤ (t.ahead c.i).length) (hrun₁ : run step t bs = some m)
    (hrun₂ : run step m cs = some v) (hlost : Meets step (LosesNothing c.i) t (bs ++ cs))
    (hempty : m.inFlight c.i = []) (hthree : 3 ≤ cs.count (.user u .go)) :
    Returned c ((t.ahead c.i).take c.size) t.history v := by
  obtain ⟨hbefore, hafter⟩ := List.forall_mem_append.mp hone
  obtain ⟨hkept₀, hkept₁⟩ := (meets_append hrun).mp hkept
  have hall : Meets step (fun _ => OneConsumer consumer) t (bs ++ cs) := meets_of_forall hafter
  have horderly : Meets step (Orderly consumer c.i) t (bs ++ cs) := by
    refine meets_of_invariant (I := fun _ => True) (fun _ _ _ _ _ _ => trivial) ?_ trivial
      (meets_and.mpr ⟨hall, meets_and.mpr ⟨hkept₁, hlost⟩⟩)
    intro s a _ h
    exact ⟨h.1, h.2.1, h.2.2⟩
  obtain ⟨hbs, hcs⟩ := (meets_append hrun₁).mp horderly
  have hlen : ((t.ahead c.i).take c.size).length = c.size := List.length_take_of_le hsize
  have hwaits : Waits consumer u c ((t.ahead c.i).take c.size) t.history t :=
    ⟨(inStep_run h0 hbefore hkept₀ hrun).readers, Or.inl hcall, List.take_prefix _ _, List.prefix_rfl⟩
  rcases waits_run hb hlen hwaits hbs hrun₁ with hw | hret
  · refine ready_run hb hlen ⟨hw, ?_⟩ hcs hrun₂ (Nat.le_trans (stepsLeft_le hw.inCall) hthree)
    have hle := hw.ahead.length_le
    rw [hlen] at hle
    rw [ahead, hempty, List.append_nil] at hle
    exact hle
  · exact run_invariant (fun _ _ _ => returned_step) hret hrun₂

/-- A thread waits for three bytes, which are in flight. -/
def threeBytes : List Act :=
  connect 4 ++ [.handler 0 .go, .user 0 (.read ⟨4, 3, true, true⟩), .user 0 .go, .world (.sends 4 [1, 2, 3])]

/-- They are received in two pieces. -/
def inTwoPieces : List Act := [.handler 0 (.data 2), .user 0 .go, .handler 0 .go, .handler 0 .go, .handler 0 (.data 1)]

def threeSteps : List Act := [.user 0 .go, .user 0 .go, .user 0 .go]

theorem blocking_read_answered_in_two_pieces :
    ∃ t v, run step started threeBytes = some t ∧ run step t (inTwoPieces ++ threeSteps) = some v ∧
      Returned ⟨4, 3, true, true⟩ ((t.ahead 4).take 3) t.history v := by
  have hrun : (run step started threeBytes).map (fun t => (t.users 0, (t.ahead 4).length)) =
      some (.wait ⟨4, 3, true, true⟩, 3) := by decide +kernel
  obtain ⟨t, ht, hboth⟩ := Option.map_eq_some_iff.mp hrun
  obtain ⟨hwait, hsize⟩ := Prod.mk.inj hboth
  have hmiddle : (run step started (threeBytes ++ inTwoPieces)).map (·.inFlight 4) = some [] := by decide +kernel
  obtain ⟨m, hm, hempty⟩ := Option.map_eq_some_iff.mp hmiddle
  obtain ⟨t', ht', hm'⟩ := run_append.mp hm
  obtain rfl : t = t' := Option.some.inj (ht.symm.trans ht')
  have hend : (run step started (threeBytes ++ (inTwoPieces ++ threeSteps))).isSome := by decide +kernel
  obtain ⟨v, hv⟩ := Option.isSome_iff_exists.mp hend
  obtain ⟨t'', ht'', hv'⟩ := run_append.mp hv
  obtain rfl : t = t'' := Option.some.inj (ht.symm.trans ht'')
  obtain ⟨m', hm'', hv''⟩ := run_append.mp hv'
  obtain rfl : m = m' := Option.some.inj (hm'.symm.trans hm'')
  have hone : ∀ a ∈ threeBytes ++ (inTwoPieces ++ threeSteps), OneConsumer (fun _ => 0) a := by
    simp [threeBytes, inTwoPieces, threeSteps, connect, OneConsumer]
  have hlost : Meets step (LosesNothing 4) started (threeBytes ++ (inTwoPieces ++ threeSteps)) := by decide +kernel
  refine ⟨t, v, ht, hv', blocking_read_answered started_started hone (by decide +kernel) ht rfl (Or.inr hwait)
    (Nat.le_of_eq hsize.symm) hm' hv'' ((meets_append ht).mp hlost).2 hempty (by decide +kernel)⟩

end ComClient.Server.TCPServer
