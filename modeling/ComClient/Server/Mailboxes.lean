/-
  ComClient.Server.Mailboxes — the FIFOs of a `TCPServer` as mailboxes
  (`ComClient.Lts.Mailbox`), with any number of callers.

  A handler's section puts a chunk into the box of its socket, an erasing read takes from
  it, and `clear_fifo`, the handler's clean-up and the registration of a connection drop
  it. Nothing else that a thread does is seen of the boxes.

  - `fifos_are_mailboxes`: every run of the server is such a run of the boxes.
  - `bytes_in_order`: so however many threads read and clear a socket, and however often
    its descriptor is handed out again, what they took comes from what was received
    there, in that order and no byte twice.
  - `bytes_kept_iff`: and every byte is still there or was taken if and only if a FIFO
    that was dropped was empty.
-/

import ComClient.Lts.Mailbox
import ComClient.Lts.Refine
import ComClient.Server.Fifo

namespace ComClient.Server.TCPServer

open ComClient.Transport (Byte)
open ComClient.Lts

/-- What a step does to the boxes. -/
def boxActs (s : TCPServer) : Act → List (Mailbox.Act Socket Byte)
  | .accept .go =>
    match s.accept with
    | .setFifo fd => [.drop fd]
    | _ => []
  | .handler tid .go =>
    match s.handlers tid with
    | some ⟨fd, .eraseFifo⟩ => [.drop fd]
    | _ => []
  | .handler tid (.data n) =>
    match s.handlers tid with
    | some ⟨fd, _⟩ => [.put fd (((s.sockets fd).elim [] (·.pending)).take n)]
    | none => []
  | .user u .go =>
    match s.users u with
    | .copy c n =>
      if c.erase = true ∧ n ≤ (s.reg.fifo c.i).length then [.take c.i ((s.reg.fifo c.i).take n)] else []
    | _ => []
  | .user _ (.clear i) => [.drop i]
  | _ => []

variable {s t : TCPServer} {as : List Act} {i : Socket}

theorem fifo_eq_update {r r' : Registry} {bytes : List Byte} (h : ∀ j, r'.fifo j = if j = i then bytes else r.fifo j) :
    r'.fifo = Function.update r.fifo i bytes := by
  funext j
  rw [h j, Function.update_apply]

/-- A section that leaves the FIFOs as they are. -/
theorem boxes_same {l : List (Mailbox.Act Socket Byte)} (hl : l = []) (h : ∀ j, t.reg.fifo j = s.reg.fifo j) :
    run Mailbox.step s.reg.fifo l = some t.reg.fifo := by
  rw [hl, funext h]
  rfl

theorem boxes_drop {r r' : Registry} (h : ∀ j, r'.fifo j = if j = i then [] else r.fifo j) :
    run Mailbox.step r.fifo [.drop i] = some r'.fifo := by
  rw [fifo_eq_update h]
  rfl

theorem boxes_acceptStep {a : AcceptAct} (hs : AcceptStep s a t) :
    run Mailbox.step s.reg.fifo (s.boxActs (.accept a)) = some t.reg.fifo := by
  cases hs with
  | setFifo fd hpc =>
    simp only [boxActs, hpc]
    exact boxes_drop (Registry.fifo_setFifo s.reg fd · [])
  | check hpc => exact boxes_same (by simp [boxActs, hpc]) fun _ => rfl
  | insertClient fd hpc => exact boxes_same (by simp [boxActs, hpc]) fun _ => rfl
  | makeMutex fd hpc => exact boxes_same (by simp [boxActs, hpc]) fun _ => rfl
  | startThread fd hpc => exact boxes_same (by simp [boxActs, hpc]) fun _ => rfl
  | assign fd tid hpc hnone => exact boxes_same (by simp [boxActs, hpc]) fun _ => rfl
  | terminate fd tid old hpc hold => exact boxes_same (by simp [boxActs, hpc]) fun _ => rfl
  | notify fd hpc => exact boxes_same (by simp [boxActs, hpc]) fun _ => rfl
  | connection fd hpc hfree => exact boxes_same rfl fun _ => rfl
  | error e hpc => exact boxes_same rfl fun _ => rfl

theorem boxes_handlerStep {tid : Tid} {a : HandlerAct} (hs : HandlerStep s tid a t) :
    run Mailbox.step s.reg.fifo (s.boxActs (.handler tid a)) = some t.reg.fifo := by
  cases hs with
  | data fd n c hh hc h0 hn hlen =>
    simp only [boxActs, hh, hc, Option.elim_some]
    show some (Function.update s.reg.fifo fd _) = some (s.reg.append fd (c.pending.take n)).fifo
    rw [fifo_eq_update (Registry.fifo_append s.reg fd · _)]
  | eraseFifo fd hh =>
    simp only [boxActs, hh]
    exact boxes_drop (Registry.fifo_eraseFifo s.reg fd)
  | check fd hh => exact boxes_same (by simp [boxActs, hh]) fun _ => rfl
  | callback fd chunk hh => exact boxes_same (by simp [boxActs, hh]) fun _ => rfl
  | close fd hh => exact boxes_same (by simp [boxActs, hh]) fun _ => rfl
  | eraseClient fd hh => exact boxes_same (by simp [boxActs, hh]) fun _ => rfl
  | eraseMutex fd hh => exact boxes_same (by simp [boxActs, hh]) fun _ => rfl
  | closed fd hh hc => exact boxes_same rfl fun _ => rfl
  | failed fd e hh hc => exact boxes_same rfl fun _ => rfl

theorem boxes_userStep {u : Tid} {a : UserAct} (hs : UserStep s u a t) :
    run Mailbox.step s.reg.fifo (s.boxActs (.user u a)) = some t.reg.fifo := by
  cases hs with
  | clear j hu => exact boxes_drop (Registry.fifo_clearFifo s.reg j)
  | copy c n reg bytes hu hc =>
    obtain ⟨hn, -, hfifo⟩ := Registry.copy_eq_some _ _ _ hc
    simp only [boxActs, hu]
    by_cases he : c.erase = true
    · have hlen : ((s.reg.fifo c.i).take n).length = n := by
        rw [List.length_take]
        exact Nat.min_eq_left hn
      rw [if_pos ⟨he, hn⟩, run, Mailbox.step, if_pos (List.take_prefix _ _), hlen]
      simp only [he, and_true] at hfifo
      exact congrArg some (fifo_eq_update hfifo).symm
    · refine boxes_same (if_neg fun h => he h.1) ?_
      intro j
      exact (hfifo j).trans (if_neg fun h => he h.2)
  | outOfBounds c n hu hc =>
    have hn : ¬ n ≤ (s.reg.fifo c.i).length := by
      intro hn
      simp [Registry.copy, hn] at hc
    exact boxes_same (by simp [boxActs, hu, hn]) fun _ => rfl
  | sample c hu => exact boxes_same (by simp [boxActs, hu]) (Registry.fifo_sample _ _)
  | wait c hu => exact boxes_same (by simp [boxActs, hu]) (Registry.fifo_sample _ _)
  | clamp c hu => exact boxes_same (by simp [boxActs, hu]) fun j => Registry.fifo_clamp _ _ j c.size
  | sampled j hu => exact boxes_same (by simp [boxActs, hu]) (Registry.fifo_sample _ _)
  | read c hu hc => exact boxes_same rfl fun _ => rfl
  | readRefused c hu => exact boxes_same rfl fun _ => rfl
  | available j hu hc => exact boxes_same rfl fun _ => rfl
  | availableRefused j hu => exact boxes_same rfl fun _ => rfl

theorem boxes_step (s : TCPServer) (a : Act) (t : TCPServer) (hs : s.step a = some t) :
    run Mailbox.step s.reg.fifo (s.boxActs a) = some t.reg.fifo := by
  obtain ⟨-, hs⟩ := step_cases hs
  cases a with
  | accept a => exact boxes_acceptStep hs
  | handler tid a => exact boxes_handlerStep hs
  | stop a => cases hs <;> exact boxes_same rfl fun _ => rfl
  | user u a => exact boxes_userStep hs
  | world a => cases hs <;> exact boxes_same rfl fun _ => rfl

/-! ## What was seen of the boxes -/

/-- A step that puts nothing into the box and takes nothing from it. -/
theorem seen_same {l : List (Mailbox.Act Socket Byte)} {es : List Event} (ht : t.history = s.history ++ es)
    (hr : received i es = []) (hk : taken i es = []) (hp : l.flatMap (Mailbox.puts i) = [])
    (hq : l.flatMap (Mailbox.takes i) = []) :
    received i t.history = received i s.history ++ l.flatMap (Mailbox.puts i) ∧
      taken i t.history = taken i s.history ++ l.flatMap (Mailbox.takes i) := by
  rw [ht, received_append, taken_append, hr, hk, hp, hq]
  exact ⟨rfl, rfl⟩

/-- A step that logs nothing. -/
theorem seen_unlogged {l : List (Mailbox.Act Socket Byte)} (ht : t.history = s.history)
    (hp : l.flatMap (Mailbox.puts i) = []) (hq : l.flatMap (Mailbox.takes i) = []) :
    received i t.history = received i s.history ++ l.flatMap (Mailbox.puts i) ∧
      taken i t.history = taken i s.history ++ l.flatMap (Mailbox.takes i) :=
  @seen_same _ _ _ _ [] (by rw [ht, List.append_nil]) rfl rfl hp hq

theorem seen_handlerStep {tid : Tid} {a : HandlerAct} (hs : HandlerStep s tid a t) :
    received i t.history = received i s.history ++ (s.boxActs (.handler tid a)).flatMap (Mailbox.puts i) ∧
      taken i t.history = taken i s.history ++ (s.boxActs (.handler tid a)).flatMap (Mailbox.takes i) := by
  cases hs with
  | data fd n c hh hc h0 hn hlen =>
    refine ⟨(received_append _ _).trans (congrArg (received i s.history ++ ·) ?_),
      (taken_append _ _).trans (congrArg (taken i s.history ++ ·) ?_)⟩
    · simp [received, boxActs, hh, hc, Mailbox.puts]
    · simp [taken, boxActs, hh, Mailbox.takes]
  | callback fd chunk hh =>
    refine seen_same rfl ?_ ?_ (by simp [boxActs, hh]) (by simp [boxActs, hh])
    all_goals split <;> rfl
  | eraseFifo fd hh =>
    exact seen_unlogged rfl (by simp [boxActs, hh, Mailbox.puts]) (by simp [boxActs, hh, Mailbox.takes])
  | check fd hh => exact seen_unlogged rfl (by simp [boxActs, hh]) (by simp [boxActs, hh])
  | close fd hh => exact seen_unlogged rfl (by simp [boxActs, hh]) (by simp [boxActs, hh])
  | eraseClient fd hh => exact seen_unlogged rfl (by simp [boxActs, hh]) (by simp [boxActs, hh])
  | eraseMutex fd hh => exact seen_unlogged rfl (by simp [boxActs, hh]) (by simp [boxActs, hh])
  | closed fd hh hc => exact seen_unlogged rfl rfl rfl
  | failed fd e hh hc => exact seen_unlogged rfl rfl rfl

theorem seen_acceptStep {a : AcceptAct} (hs : AcceptStep s a t) :
    received i t.history = received i s.history ++ (s.boxActs (.accept a)).flatMap (Mailbox.puts i) ∧
      taken i t.history = taken i s.history ++ (s.boxActs (.accept a)).flatMap (Mailbox.takes i) := by
  cases hs with
  | setFifo fd hpc =>
    exact seen_unlogged rfl (by simp [boxActs, hpc, Mailbox.puts]) (by simp [boxActs, hpc, Mailbox.takes])
  | notify fd hpc =>
    refine seen_same rfl ?_ ?_ (by simp [boxActs, hpc]) (by simp [boxActs, hpc])
    all_goals split <;> rfl
  | connection fd hpc hfree => exact seen_unlogged rfl rfl rfl
  | error e hpc => exact seen_unlogged rfl rfl rfl
  | check hpc => exact seen_unlogged rfl (by simp [boxActs, hpc]) (by simp [boxActs, hpc])
  | insertClient fd hpc => exact seen_unlogged rfl (by simp [boxActs, hpc]) (by simp [boxActs, hpc])
  | makeMutex fd hpc => exact seen_unlogged rfl (by simp [boxActs, hpc]) (by simp [boxActs, hpc])
  | startThread fd hpc => exact seen_unlogged rfl (by simp [boxActs, hpc]) (by simp [boxActs, hpc])
  | assign fd tid hpc hnone => exact seen_unlogged rfl (by simp [boxActs, hpc]) (by simp [boxActs, hpc])
  | terminate fd tid old hpc hold => exact seen_unlogged rfl (by simp [boxActs, hpc]) (by simp [boxActs, hpc])

theorem seen_userStep {u : Tid} {a : UserAct} (hs : UserStep s u a t) :
    received i t.history = received i s.history ++ (s.boxActs (.user u a)).flatMap (Mailbox.puts i) ∧
      taken i t.history = taken i s.history ++ (s.boxActs (.user u a)).flatMap (Mailbox.takes i) := by
  cases hs with
  | copy c n reg bytes hu hc =>
    obtain ⟨hn, hbytes, -⟩ := Registry.copy_eq_some _ _ _ hc
    refine ⟨(received_append _ _).trans (congrArg (received i s.history ++ ·) ?_),
      (taken_append _ _).trans (congrArg (taken i s.history ++ ·) ?_)⟩
    · by_cases he : c.erase = true <;> simp [received, boxActs, hu, he, hn, Mailbox.puts]
    · by_cases he : c.erase = true <;> simp [taken, boxActs, hu, he, hn, hbytes, Mailbox.takes]
  | outOfBounds c n hu hc =>
    have hn : ¬ n ≤ (s.reg.fifo c.i).length := by
      intro hn
      simp [Registry.copy, hn] at hc
    exact seen_unlogged rfl (by simp [boxActs, hu, hn]) (by simp [boxActs, hu, hn])
  | readRefused c hu => exact seen_same rfl rfl rfl rfl rfl
  | availableRefused j hu => exact seen_same rfl rfl rfl rfl rfl
  | sampled j hu => exact seen_same rfl rfl rfl (by simp [boxActs, hu]) (by simp [boxActs, hu])
  | clear j hu => exact seen_unlogged rfl rfl rfl
  | read c hu hc => exact seen_unlogged rfl rfl rfl
  | available j hu hc => exact seen_unlogged rfl rfl rfl
  | sample c hu => exact seen_unlogged rfl (by simp [boxActs, hu]) (by simp [boxActs, hu])
  | wait c hu => exact seen_unlogged rfl (by simp [boxActs, hu]) (by simp [boxActs, hu])
  | clamp c hu => exact seen_unlogged rfl (by simp [boxActs, hu]) (by simp [boxActs, hu])

theorem seen_step (i : Socket) (s : TCPServer) (a : Act) (t : TCPServer) (hs : s.step a = some t) :
    received i t.history = received i s.history ++ (s.boxActs a).flatMap (Mailbox.puts i) ∧
      taken i t.history = taken i s.history ++ (s.boxActs a).flatMap (Mailbox.takes i) := by
  obtain ⟨-, hs⟩ := step_cases hs
  cases a with
  | accept a => exact seen_acceptStep hs
  | handler tid a => exact seen_handlerStep hs
  | stop a => cases hs <;> exact seen_unlogged rfl rfl rfl
  | user u a => exact seen_userStep hs
  | world a => cases hs <;> exact seen_unlogged rfl rfl rfl

/-! ## Runs -/

theorem boxes_run (h0 : Started s) (hrun : run step s as = some t) :
    run Mailbox.step (fun _ => []) (trace step boxActs s as) = some t.reg.fifo ∧
      ∀ i, (trace step boxActs s as).flatMap (Mailbox.puts i) = received i t.history ∧
        (trace step boxActs s as).flatMap (Mailbox.takes i) = taken i t.history := by
  have hempty : (fun _ => []) = s.reg.fifo := funext fun i => (h0.fifos i).symm
  refine ⟨?_, ?_⟩
  · rw [hempty]
    exact run_refines boxes_step hrun
  · intro i
    have hreceived : received i t.history = received i s.history ++ _ :=
      flatMap_trace (fun s a t hs => (seen_step i s a t hs).1) hrun
    have htaken : taken i t.history = taken i s.history ++ _ :=
      flatMap_trace (fun s a t hs => (seen_step i s a t hs).2) hrun
    rw [h0.history] at hreceived htaken
    exact ⟨hreceived.symm, htaken.symm⟩

/-- In every run, with any number of readers of a socket, calls of `clear_fifo` and reuses of
    a descriptor: what the threads do to the FIFOs is a run of mailboxes, into which goes
    what was received and out of which comes what the erasing reads returned. -/
theorem fifos_are_mailboxes (h0 : Started s) (hrun : run step s as = some t) :
    run Mailbox.step (fun _ => []) (trace step boxActs s as) = some t.reg.fifo ∧
      ∀ i, (trace step boxActs s as).flatMap (Mailbox.puts i) = received i t.history ∧
        (trace step boxActs s as).flatMap (Mailbox.takes i) = taken i t.history := boxes_run h0 hrun

/-- Two threads read a socket at the same time, and a third clears it. -/
def twoReadersAndAClear : List Act :=
  connect 4 ++ [.handler 0 .go, .world (.sends 4 [1, 2, 3, 4]), .handler 0 (.data 4), .user 0 (.read ⟨4, 2, false, true⟩),
    .user 1 (.read ⟨4, 1, false, true⟩), .user 0 .go, .user 1 .go, .user 1 .go, .user 0 .go, .user 0 .go, .user 1 .go,
    .user 2 (.clear 4)]

theorem fifos_are_mailboxes_for_two_readers :
    ∃ t, run step started twoReadersAndAClear = some t ∧ taken 4 t.history = [1, 2, 3] ∧
      run Mailbox.step (fun _ => []) (trace step boxActs started twoReadersAndAClear) = some t.reg.fifo ∧
        ∀ i, (trace step boxActs started twoReadersAndAClear).flatMap (Mailbox.puts i) = received i t.history ∧
          (trace step boxActs started twoReadersAndAClear).flatMap (Mailbox.takes i) = taken i t.history := by
  have hrun : (run step started twoReadersAndAClear).map (taken 4 ·.history) = some [1, 2, 3] := by decide +kernel
  obtain ⟨t, ht, htaken⟩ := Option.map_eq_some_iff.mp hrun
  exact ⟨t, ht, htaken, fifos_are_mailboxes started_started ht⟩

/-- Nothing that the erasing reads of a socket returned, and nothing that is left in its
    FIFO, was received twice or in another order. -/
theorem bytes_in_order (h0 : Started s) (hrun : run step s as = some t) (i : Socket) :
    (taken i t.history ++ t.reg.fifo i).Sublist (received i t.history) := by
  obtain ⟨hboxes, hseen⟩ := boxes_run h0 hrun
  obtain ⟨hputs, htakes⟩ := hseen i
  have hsub := Mailbox.takes_sublist hboxes i
  rw [hputs, htakes, List.nil_append] at hsub
  exact hsub

/-! ## When no byte is lost -/

/-- The step drops the FIFO of the socket only when it is empty. -/
def DropsNothing (i : Socket) (s : TCPServer) : Act → Prop
  | .accept .go => s.accept = .setFifo i → s.reg.fifo i = []
  | .handler tid .go => s.handlers tid = some ⟨i, .eraseFifo⟩ → s.reg.fifo i = []
  | .user _ (.clear j) => j = i → s.reg.fifo i = []
  | _ => True

instance (i : Socket) (s : TCPServer) : ∀ a, Decidable (DropsNothing i s a)
  | .accept .go => inferInstanceAs (Decidable (_ → _))
  | .handler _ .go => inferInstanceAs (Decidable (_ → _))
  | .user _ (.clear j) => inferInstanceAs (Decidable (j = i → s.reg.fifo i = []))
  | .accept (.connection _) => isTrue trivial
  | .accept (.error _) => isTrue trivial
  | .handler _ (.data _) => isTrue trivial
  | .handler _ .ended => isTrue trivial
  | .stop _ => isTrue trivial
  | .user _ (.read _) => isTrue trivial
  | .user _ (.available _) => isTrue trivial
  | .user _ .go => isTrue trivial
  | .world _ => isTrue trivial

theorem keeps_iff (i : Socket) (s : TCPServer) (a : Act) :
    Meets Mailbox.step (Mailbox.Keeps i) s.reg.fifo (s.boxActs a) ↔ DropsNothing i s a := by
  have hdrop : ∀ j, Meets Mailbox.step (Mailbox.Keeps i) s.reg.fifo [.drop j] ↔ (j = i → s.reg.fifo i = []) := by
    intro j
    exact and_iff_left fun _ _ => trivial
  cases a with
  | accept a =>
    cases a with
    | go => cases hpc : s.accept <;> simp [boxActs, DropsNothing, hpc, hdrop, Meets]
    | connection fd => exact Iff.rfl
    | error e => exact Iff.rfl
  | handler tid a =>
    cases a with
    | go =>
      cases hh : s.handlers tid with
      | none => simp [boxActs, DropsNothing, hh, Meets]
      | some h => obtain ⟨fd, pc⟩ := h; cases pc <;> simp [boxActs, DropsNothing, hh, hdrop, Meets]
    | data n => cases hh : s.handlers tid <;> simp [boxActs, DropsNothing, hh, Meets, Mailbox.Keeps]
    | ended => exact Iff.rfl
  | stop a => exact Iff.rfl
  | user u a =>
    cases a with
    | clear j => exact hdrop j
    | go =>
      cases hu : s.users u with
      | copy c n =>
        simp only [boxActs, hu]
        split <;> simp [DropsNothing, Meets, Mailbox.Keeps]
      | idle => simp [boxActs, DropsNothing, hu, Meets]
      | sample c => simp [boxActs, DropsNothing, hu, Meets]
      | wait c => simp [boxActs, DropsNothing, hu, Meets]
      | clamp c => simp [boxActs, DropsNothing, hu, Meets]
      | available j => simp [boxActs, DropsNothing, hu, Meets]
    | read c => exact Iff.rfl
    | available j => exact Iff.rfl
  | world a => exact Iff.rfl

/-- Every byte received on a socket was returned by an erasing read or is still in its FIFO,
    in this order, if and only if the FIFO was empty whenever it was dropped: by
    `clear_fifo`, by the clean-up of a handler, or by the registration of a connection. -/
theorem bytes_kept_iff (h0 : Started s) (hrun : run step s as = some t) (i : Socket) :
    received i t.history = taken i t.history ++ t.reg.fifo i ↔ Meets step (DropsNothing i) s as := by
  obtain ⟨hboxes, hseen⟩ := boxes_run h0 hrun
  obtain ⟨hputs, htakes⟩ := hseen i
  have hempty : (fun _ => []) = s.reg.fifo := funext fun i => (h0.fifos i).symm
  have hiff := Mailbox.takes_eq_iff hboxes i
  rw [hputs, htakes, List.nil_append, hempty, meets_trace boxes_step (keeps_iff i) hrun] at hiff
  exact hiff

end ComClient.Server.TCPServer
