/-
  ComClient.Server.Uplink — from a client's `writeS` to the caller of `read_byte`, over
  every interleaving of the clients, the server's threads and the callers.

  Behind a descriptor the kernel has a box too (`kernelActs`): what the client sends goes
  in, `recv` takes from it, and `close` or a broken connection drops it. So a byte passes
  two boxes, the kernel's and the FIFO, and each keeps the order.

  - `uplink_in_order`: what was taken from a FIFO, what is in it and what is in flight come
    from what the clients of that descriptor sent, in that order and no byte twice.
  - `uplink_kept_iff`: they are all of it if and only if neither box was dropped with
    anything in it.
  - `frames_arrive`: then a thread that reads a connection frame by frame gets the frames
    that the client wrote with `add_crc`, one a call, and all of them pass `check_CRC`.
-/

import ComClient.Server.Mailboxes
import ComClient.Transport.Frames

namespace ComClient.Server.TCPServer

open ComClient.Transport ComClient.Crc ComClient.Lts

/-- The bytes of the connection that `recv` has yet to return. -/
def inFlight (s : TCPServer) (i : Socket) : List Byte := (s.sockets i).elim [] (·.pending)

/-- What a step does to the bytes in flight. -/
def kernelActs (s : TCPServer) : Act → List (Mailbox.Act Socket Byte)
  | .world (.sends fd bytes) => [.put fd bytes]
  | .world (.fails fd _) => [.drop fd]
  | .handler tid .go =>
    match s.handlers tid with
    | some ⟨fd, .close⟩ => [.drop fd]
    | _ => []
  | .handler tid (.data n) =>
    match s.handlers tid with
    | some ⟨fd, _⟩ => [.take fd ((s.inFlight fd).take n)]
    | none => []
  | _ => []

/-- What the client of the descriptor sends. -/
def uploads (i : Socket) : Act → List Byte
  | .world (.sends fd bytes) => if fd = i then bytes else []
  | _ => []

variable {s t : TCPServer} {as : List Act} {i : Socket}

/-! ## The kernel's box -/

theorem inFlight_eq_update {fd : Socket} {c : Option Conn} {bytes : List Byte}
    (h : t.sockets = upd s.sockets fd c) (hc : c.elim [] (·.pending) = bytes) :
    t.inFlight = Function.update s.inFlight fd bytes := by
  funext j
  rw [Function.update_apply, inFlight, h]
  split
  · rename_i hj
    rw [hj, upd_same, hc]
  · rename_i hj
    rw [upd_ne _ _ hj]
    rfl

theorem kernel_moved {fd : Socket} {c : Option Conn} {bytes : List Byte} (h : t.sockets = upd s.sockets fd c)
    (hc : c.elim [] (·.pending) = bytes) : some (Function.update s.inFlight fd bytes) = some t.inFlight :=
  congrArg some (inFlight_eq_update h hc).symm

/-- A step that leaves the bytes in flight as they are. -/
theorem kernel_same {l : List (Mailbox.Act Socket Byte)} (hl : l = []) (h : t.sockets = s.sockets) :
    run Mailbox.step s.inFlight l = some t.inFlight := by
  have hflight : t.inFlight = s.inFlight := by
    unfold inFlight
    rw [h]
  rw [hl, hflight]
  rfl

theorem kernel_handlerStep {tid : Tid} {a : HandlerAct} (hs : HandlerStep s tid a t) :
    run Mailbox.step s.inFlight (s.kernelActs (.handler tid a)) = some t.inFlight := by
  cases hs with
  | close fd hh =>
    simp only [kernelActs, hh]
    exact kernel_moved rfl rfl
  | data fd n c hh hc h0 hn hlen =>
    have hflight : s.inFlight fd = c.pending := by rw [inFlight, hc, Option.elim_some]
    have htake : (c.pending.take n).length = n := by
      rw [List.length_take]
      exact Nat.min_eq_left hlen
    simp only [kernelActs, hh]
    rw [run, Mailbox.step, if_pos (List.take_prefix _ _), hflight, htake]
    exact kernel_moved rfl rfl
  | check fd hh => exact kernel_same (by simp [kernelActs, hh]) rfl
  | callback fd chunk hh => exact kernel_same (by simp [kernelActs, hh]) rfl
  | eraseClient fd hh => exact kernel_same (by simp [kernelActs, hh]) rfl
  | eraseFifo fd hh => exact kernel_same (by simp [kernelActs, hh]) rfl
  | eraseMutex fd hh => exact kernel_same (by simp [kernelActs, hh]) rfl
  | closed fd hh hc => exact kernel_same rfl rfl
  | failed fd e hh hc => exact kernel_same rfl rfl

theorem kernel_worldStep {a : WorldAct} (hs : WorldStep s a t) :
    run Mailbox.step s.inFlight (s.kernelActs (.world a)) = some t.inFlight := by
  cases hs with
  | sends fd pending bytes hc =>
    have hflight : s.inFlight fd = pending := by rw [inFlight, hc, Option.elim_some]
    refine kernel_moved rfl ?_
    rw [hflight]
    rfl
  | closes fd pending hc =>
    have hflight : s.inFlight fd = pending := by rw [inFlight, hc, Option.elim_some]
    have hsame : (s.setSocket fd (some ⟨pending, some .closed⟩)).inFlight =
        Function.update s.inFlight fd (s.inFlight fd) := inFlight_eq_update rfl hflight.symm
    rw [Function.update_eq_self] at hsame
    exact congrArg some hsame.symm
  | fails fd pending e hc => exact kernel_moved rfl rfl
  | opens fd hfree => exact kernel_same rfl rfl
  | shuts fd => exact kernel_same rfl rfl

theorem kernel_step (s : TCPServer) (a : Act) (t : TCPServer) (hs : s.step a = some t) :
    run Mailbox.step s.inFlight (s.kernelActs a) = some t.inFlight := by
  obtain ⟨-, hs⟩ := step_cases hs
  cases a with
  | accept a =>
    cases hs
    case connection fd hpc hfree =>
      have hflight : s.inFlight fd = [] := by rw [inFlight, hfree.1.2, Option.elim_none]
      have hsame : (s.setSocket fd (some ⟨[], none⟩)).inFlight = Function.update s.inFlight fd (s.inFlight fd) :=
        inFlight_eq_update rfl hflight.symm
      rw [Function.update_eq_self] at hsame
      exact congrArg some hsame.symm
    all_goals exact kernel_same rfl rfl
  | handler tid a => exact kernel_handlerStep hs
  | stop a => cases hs <;> exact kernel_same rfl rfl
  | user u a => exact kernel_same rfl (UserStep.sockets hs)
  | world a => exact kernel_worldStep hs

/-! ## Both boxes -/

/-- What `recv` takes from the kernel is put into the FIFO. -/
theorem puts_boxActs (s : TCPServer) (a : Act) (i : Socket) :
    (s.boxActs a).flatMap (Mailbox.puts i) = (s.kernelActs a).flatMap (Mailbox.takes i) := by
  cases a with
  | accept a =>
    cases a with
    | go => cases hpc : s.accept <;> simp [boxActs, kernelActs, hpc, Mailbox.puts]
    | connection fd => rfl
    | error e => rfl
  | handler tid a =>
    cases hh : s.handlers tid with
    | none => cases a <;> simp [boxActs, kernelActs, hh]
    | some h =>
      obtain ⟨fd, pc⟩ := h
      cases a with
      | go => cases pc <;> simp [boxActs, kernelActs, hh, Mailbox.puts, Mailbox.takes]
      | data n => simp [boxActs, kernelActs, hh, inFlight, Mailbox.puts, Mailbox.takes]
      | ended => rfl
  | stop a => rfl
  | user u a =>
    cases a with
    | go =>
      simp only [boxActs, kernelActs]
      split
      · split <;> rfl
      · rfl
    | read c => rfl
    | available j => rfl
    | clear j => rfl
  | world a => cases a <;> rfl

theorem puts_kernelActs (s : TCPServer) (a : Act) (i : Socket) :
    (s.kernelActs a).flatMap (Mailbox.puts i) = uploads i a := by
  cases a with
  | handler tid a =>
    cases a with
    | go =>
      simp only [kernelActs]
      split <;> rfl
    | data n => cases hh : s.handlers tid <;> simp [kernelActs, uploads, hh, Mailbox.puts]
    | ended => rfl
  | world a =>
    cases a with
    | sends fd bytes => exact List.append_nil _
    | _ => rfl
  | accept a => rfl
  | stop a => rfl
  | user u a => rfl

theorem kernel_run (h0 : Started s) (hrun : run step s as = some t) :
    run Mailbox.step s.inFlight (trace step kernelActs s as) = some t.inFlight ∧
      ∀ i, (trace step kernelActs s as).flatMap (Mailbox.puts i) = as.flatMap (uploads i) ∧
        (trace step kernelActs s as).flatMap (Mailbox.takes i) = received i t.history := by
  refine ⟨run_refines kernel_step hrun, ?_⟩
  intro i
  refine ⟨flatMap_trace_eq (fun s a _ _ => puts_kernelActs s a i) hrun, ?_⟩
  have hstep : ∀ (s : TCPServer) (a : Act) (t : TCPServer), s.step a = some t →
      received i t.history = received i s.history ++ (s.kernelActs a).flatMap (Mailbox.takes i) := by
    intro s a t hs
    rw [← puts_boxActs]
    exact (seen_step i s a t hs).1
  have hreceived := flatMap_trace hstep hrun
  rw [h0.history] at hreceived
  exact hreceived.symm

theorem received_sublist (h0 : Started s) (hrun : run step s as = some t) (i : Socket) :
    (received i t.history ++ t.inFlight i).Sublist (as.flatMap (uploads i)) := by
  obtain ⟨hkernel, hseen⟩ := kernel_run h0 hrun
  obtain ⟨hputs, htakes⟩ := hseen i
  have hnone : s.inFlight i = [] := by rw [inFlight, h0.sockets, Option.elim_none]
  have hsub := Mailbox.takes_sublist hkernel i
  rw [hputs, htakes, hnone, List.nil_append] at hsub
  exact hsub

/-- However the clients, the server's threads and the callers are interleaved, and whoever
    was given the descriptor: what the erasing reads took from a socket, what is in its FIFO
    and what is in flight were sent by its clients, in this order and no byte twice. -/
theorem uplink_in_order (h0 : Started s) (hrun : run step s as = some t) (i : Socket) :
    (taken i t.history ++ t.reg.fifo i ++ t.inFlight i).Sublist (as.flatMap (uploads i)) :=
  ((bytes_in_order h0 hrun i).append_right (t.inFlight i)).trans (received_sublist h0 hrun i)

/-- A client sends four bytes; two are read, one is in the FIFO and one in flight. -/
def fourBytes : List Act :=
  connect 4 ++ [.handler 0 .go, .world (.sends 4 [1, 2]), .world (.sends 4 [3, 4]), .handler 0 (.data 3),
    .user 0 (.read ⟨4, 2, false, true⟩), .user 0 .go, .user 0 .go, .user 0 .go]

theorem uplink_in_order_for_four_bytes :
    ∃ t, run step started fourBytes = some t ∧ taken 4 t.history ++ t.reg.fifo 4 ++ t.inFlight 4 = [1, 2, 3, 4] ∧
      (taken 4 t.history ++ t.reg.fifo 4 ++ t.inFlight 4).Sublist (fourBytes.flatMap (uploads 4)) := by
  have hrun : (run step started fourBytes).map (fun t => taken 4 t.history ++ t.reg.fifo 4 ++ t.inFlight 4) =
      some [1, 2, 3, 4] := by decide +kernel
  obtain ⟨t, ht, hbytes⟩ := Option.map_eq_some_iff.mp hrun
  exact ⟨t, ht, hbytes, uplink_in_order started_started ht 4⟩

/-- A connection is broken, or closed by its handler, only with nothing in flight. -/
def LosesNothing (i : Socket) (s : TCPServer) : Act → Prop
  | .world (.fails fd _) => fd = i → s.inFlight i = []
  | .handler tid .go => s.handlers tid = some ⟨i, .close⟩ → s.inFlight i = []
  | _ => True

instance (i : Socket) (s : TCPServer) : ∀ a, Decidable (LosesNothing i s a)
  | .world (.fails fd _) => inferInstanceAs (Decidable (fd = i → s.inFlight i = []))
  | .handler _ .go => inferInstanceAs (Decidable (_ → _))
  | .accept _ => isTrue trivial
  | .handler _ (.data _) => isTrue trivial
  | .handler _ .ended => isTrue trivial
  | .stop _ => isTrue trivial
  | .user _ _ => isTrue trivial
  | .world (.sends _ _) => isTrue trivial
  | .world (.closes _) => isTrue trivial
  | .world (.opens _) => isTrue trivial
  | .world (.shuts _) => isTrue trivial

theorem losesNothing_iff (i : Socket) (s : TCPServer) (a : Act) :
    Meets Mailbox.step (Mailbox.Keeps i) s.inFlight (s.kernelActs a) ↔ LosesNothing i s a := by
  have hdrop : ∀ j, Meets Mailbox.step (Mailbox.Keeps i) s.inFlight [.drop j] ↔ (j = i → s.inFlight i = []) := by
    intro j
    exact and_iff_left fun _ _ => trivial
  cases a with
  | handler tid a =>
    cases a with
    | go =>
      cases hh : s.handlers tid with
      | none => simp [kernelActs, LosesNothing, hh, Meets]
      | some h => obtain ⟨fd, pc⟩ := h; cases pc <;> simp [kernelActs, LosesNothing, hh, hdrop, Meets]
    | data n => cases hh : s.handlers tid <;> simp [kernelActs, LosesNothing, hh, Meets, Mailbox.Keeps]
    | ended => exact Iff.rfl
  | world a =>
    cases a with
    | fails fd e => exact hdrop fd
    | sends fd bytes => exact ⟨fun _ => trivial, fun _ => ⟨trivial, fun _ _ => trivial⟩⟩
    | closes fd => exact Iff.rfl
    | opens fd => exact Iff.rfl
    | shuts fd => exact Iff.rfl
  | accept a => exact Iff.rfl
  | stop a => exact Iff.rfl
  | user u a => exact Iff.rfl

theorem received_eq_iff (h0 : Started s) (hrun : run step s as = some t) (i : Socket) :
    as.flatMap (uploads i) = received i t.history ++ t.inFlight i ↔ Meets step (LosesNothing i) s as := by
  obtain ⟨hkernel, hseen⟩ := kernel_run h0 hrun
  obtain ⟨hputs, htakes⟩ := hseen i
  have hnone : s.inFlight i = [] := by rw [inFlight, h0.sockets, Option.elim_none]
  have hiff := Mailbox.takes_eq_iff hkernel i
  rw [hputs, htakes, hnone, List.nil_append, meets_trace kernel_step (losesNothing_iff i) hrun] at hiff
  exact hiff

/-- Where each of two stages loses at most something, nothing is lost if and only if neither
    has lost anything. -/
theorem eq_append_iff_of_sublist {α : Type} {a b c d : List α} (hab : a.Sublist b) (hbd : (b ++ c).Sublist d) :
    d = a ++ c ↔ b = a ∧ d = b ++ c := by
  constructor
  · intro h
    have hlen := hbd.length_le
    rw [h, List.length_append, List.length_append] at hlen
    have hb : a = b := hab.eq_of_length_le (by omega)
    exact ⟨hb.symm, hb ▸ h⟩
  · intro hboth
    rcases hboth with ⟨rfl, h⟩
    exact h

/-- All that the clients of a descriptor sent was taken, is in the FIFO or is in flight if and
    only if whatever was dropped was empty: the FIFO by `clear_fifo`, a clean-up or a
    registration, the connection by its handler's `close` or a failure. -/
theorem uplink_kept_iff (h0 : Started s) (hrun : run step s as = some t) (i : Socket) :
    as.flatMap (uploads i) = taken i t.history ++ t.reg.fifo i ++ t.inFlight i ↔
      Meets step (DropsNothing i) s as ∧ Meets step (LosesNothing i) s as := by
  rw [eq_append_iff_of_sublist (bytes_in_order h0 hrun i) (received_sublist h0 hrun i), bytes_kept_iff h0 hrun i,
    received_eq_iff h0 hrun i]

theorem uplink_kept_iff_for_four_bytes :
    ∃ t, run step started fourBytes = some t ∧
      (fourBytes.flatMap (uploads 4) = taken 4 t.history ++ t.reg.fifo 4 ++ t.inFlight 4 ↔
        Meets step (DropsNothing 4) started fourBytes ∧ Meets step (LosesNothing 4) started fourBytes) := by
  have hsome : (run step started fourBytes).isSome = true := by decide +kernel
  obtain ⟨t, ht⟩ := Option.isSome_iff_exists.mp hsome
  exact ⟨t, ht, uplink_kept_iff started_started ht 4⟩

/-! ## Frames -/

/-- The erasing reads of the socket that have returned, each with what it copied. -/
def reads (i : Socket) (h : List Event) : List (ReadCall × List Byte) :=
  h.filterMap fun
    | .read c bytes => if c.i = i ∧ c.erase = true then some (c, bytes) else none
    | _ => none

theorem reads_append (h es : List Event) : reads i (h ++ es) = reads i h ++ reads i es := List.filterMap_append

theorem taken_eq_flatMap (h : List Event) : taken i h = (reads i h).flatMap (·.2) := by
  induction h with
  | nil => rfl
  | cons e h ih =>
    have hcons : taken i (e :: h) = taken i [e] ++ taken i h := taken_append [e] h
    have hreads : reads i (e :: h) = reads i [e] ++ reads i h := reads_append [e] h
    rw [hcons, hreads, List.flatMap_append, ih]
    congr 1
    cases e with
    | read c bytes =>
      by_cases hc : c.i = i ∧ c.erase = true
      · simp [taken, reads, hc]
      · simp only [taken, reads, List.flatMap_singleton, List.filterMap_cons, List.filterMap_nil, if_neg hc,
          List.flatMap_nil]
    | _ => rfl

/-- The blocking reads have copied all they asked for. -/
def Whole (i : Socket) (h : List Event) : Prop :=
  ∀ r ∈ reads i h, r.1.blocking = true → r.2.length = r.1.size

theorem whole_append {h es : List Event} (hw : Whole i h) (hes : reads i es = []) : Whole i (h ++ es) := by
  unfold Whole
  rw [reads_append, hes, List.append_nil]
  exact hw

structure InStep (consumer : Socket → Tid) (i : Socket) (s : TCPServer) : Prop where
  readers : Readers consumer i s
  whole : Whole i s.history

theorem whole_other {a : Act} (hw : Whole i s.history) (ha : ∀ u b, a ≠ .user u b) (hs : s.step a = some t) :
    Whole i t.history := by
  obtain ⟨-, hs⟩ := step_cases hs
  cases a with
  | accept a =>
    cases hs
    case notify fd hpc =>
      refine whole_append hw ?_
      split <;> rfl
    all_goals exact hw
  | handler tid a =>
    cases hs
    case callback fd chunk hh =>
      refine whole_append hw ?_
      split <;> rfl
    case data => exact whole_append hw rfl
    all_goals exact hw
  | stop a => cases hs <;> exact hw
  | user u a => exact absurd rfl (ha u a)
  | world a => cases hs <;> exact hw

theorem whole_userStep {consumer : Socket → Tid} {u : Tid} {a : UserAct} (h : InStep consumer i s)
    (hs : s.step (.user u a) = some t) : Whole i t.history := by
  obtain ⟨-, hcases⟩ := step_cases hs
  cases hcases with
  | copy c n reg bytes hu hc =>
    intro r hr hb
    change r ∈ reads i (s.history ++ [.read c bytes]) at hr
    rw [reads_append, List.mem_append] at hr
    rcases hr with hr | hr
    · exact h.whole r hr hb
    · by_cases he : c.i = i ∧ c.erase = true
      · have hlearnt := h.readers.learnt u (by rw [hu]; exact congrArg some he.1)
        obtain ⟨hn, hbytes, -⟩ := Registry.copy_eq_some _ _ _ hc
        simp only [reads, List.filterMap_cons, List.filterMap_nil, if_pos he, List.mem_singleton] at hr
        subst hr
        rw [hu] at hlearnt
        rw [hbytes, List.length_take, Nat.min_eq_left hn]
        exact hlearnt.2 hb
      · simp [reads, he] at hr
  | readRefused c hu => exact whole_append h.whole rfl
  | availableRefused j hu => exact whole_append h.whole rfl
  | sampled j hu => exact whole_append h.whole rfl
  | read c hu hc => exact h.whole
  | available j hu hc => exact h.whole
  | clear j hu => exact h.whole
  | sample c hu => exact h.whole
  | wait c hu => exact h.whole
  | clamp c hu => exact h.whole
  | outOfBounds c n hu hc => exact h.whole

theorem takes_boxActs {a : Act} (ha : ∀ u b, a ≠ .user u b) : (s.boxActs a).flatMap (Mailbox.takes i) = [] := by
  cases a with
  | accept a =>
    cases a with
    | go => cases hpc : s.accept <;> simp [boxActs, hpc, Mailbox.takes]
    | connection fd => rfl
    | error e => rfl
  | handler tid a =>
    cases hh : s.handlers tid with
    | none => cases a <;> simp [boxActs, hh]
    | some h =>
      obtain ⟨fd, pc⟩ := h
      cases a with
      | go => cases pc <;> simp [boxActs, hh, Mailbox.takes]
      | data n => simp [boxActs, hh, Mailbox.takes]
      | ended => rfl
  | stop a => rfl
  | user u a => exact absurd rfl (ha u a)
  | world a => rfl

/-- Only its readers make a FIFO shorter that is not dropped. -/
theorem fifo_grows_of_kept {a : Act} (ha : ∀ u b, a ≠ .user u b) (hd : DropsNothing i s a) (hs : s.step a = some t) :
    (s.reg.fifo i).length ≤ (t.reg.fifo i).length := by
  have hkept := (Mailbox.takes_eq_iff (boxes_step s a t hs) i).mpr ((keeps_iff i s a).mpr hd)
  rw [takes_boxActs ha, List.nil_append] at hkept
  rw [← hkept, List.length_append]
  exact Nat.le_add_right _ _

theorem inStep_step {consumer : Socket → Tid} {a : Act} (h : InStep consumer i s)
    (ha : OneConsumer consumer a ∧ DropsNothing i s a) (hs : s.step a = some t) : InStep consumer i t := by
  rcases user_or_not a with ⟨u, b, rfl⟩ | huser
  · refine ⟨?_, whole_userStep h hs⟩
    obtain ⟨-, hs⟩ := step_cases hs
    exact readers_userStep h.readers ha.1 hs
  · exact ⟨readers_frame h.readers (users_of_step hs huser) (fifo_grows_of_kept huser ha.2 hs),
      whole_other h.whole huser hs⟩

theorem inStep_run {consumer : Socket → Tid} (h0 : Started s) (hone : ∀ a ∈ as, OneConsumer consumer a)
    (hkept : Meets step (DropsNothing i) s as) (hrun : run step s as = some t) : InStep consumer i t := by
  have hboth := meets_and.mpr ⟨meets_of_forall hone, hkept⟩
  refine run_invariant_of_meets (fun _ _ _ => inStep_step) ⟨⟨?_, ?_⟩, ?_⟩ hboth hrun
  · intro u hu
    rw [h0.users] at hu
    cases hu
  · intro u hu
    rw [h0.users] at hu
    cases hu
  · intro r hr
    rw [h0.history] at hr
    cases hr

/-- A call of `writeS(buffer, size, true)`. -/
structure Message where
  buffer : Mem
  size : SizeT
  small : size.val < 2 ^ 31 - 2

namespace Message

def payload (m : Message) : List Byte := load m.buffer 0 m.size.val

def frame (m : Message) : List Byte := m.payload ++ trailer m.payload

theorem length_frame (m : Message) : m.frame.length = m.size.val + 2 := by
  simp [frame, payload, trailer]

/-- What the client hands to the kernel. -/
def handed (c : Client) (accept : List Byte → Int) (m : Message) : List Byte :=
  ((TCP.writeS c accept m.buffer m.size true).sent.map (·.bytes)).getD []

theorem handed_eq {c : Client} (hc : c.isConnected = true) (accept : List Byte → Int) (m : Message) :
    m.handed c accept = m.frame := by
  have hsent : (TCP.writeS c accept m.buffer m.size true).sent = some ⟨c.fd, m.frame, none⟩ :=
    streamClient_writeS .tcp hc accept m.buffer m.small
  rw [handed, hsent]
  rfl

end Message

/-- Blocks as long as the first frames, cut from the frames, are these frames. -/
theorem eq_take_of_lengths {α : Type} {blocks frames : List (List α)} {rest : List α}
    (hlen : blocks.map List.length <+: frames.map List.length) (h : frames.flatten = blocks.flatten ++ rest) :
    blocks = frames.take blocks.length := by
  induction blocks generalizing frames with
  | nil => rfl
  | cons b blocks ih =>
    cases frames with
    | nil => simp at hlen
    | cons f frames =>
      rw [List.map_cons, List.map_cons, List.cons_prefix_cons] at hlen
      rw [List.flatten_cons, List.flatten_cons, List.append_assoc] at h
      obtain ⟨hb, hrest⟩ := List.append_inj h hlen.1.symm
      rw [List.length_cons, List.take_succ_cons, ← ih hlen.2 hrest, hb]

/-- A client writes `ms` with a trailer each, the kernel takes all of it, nothing of the
    connection is dropped, and one thread makes blocking reads of it, each as large as the
    next frame: the reads return the frames, one each and in order, and all pass
    `check_CRC`. -/
theorem frames_arrive {consumer : Socket → Tid} (h0 : Started s) (hone : ∀ a ∈ as, OneConsumer consumer a)
    (hkept : Meets step (DropsNothing i) s as) (hlost : Meets step (LosesNothing i) s as)
    (hrun : run step s as = some t) {c : Client} (hc : c.isConnected = true) {accept : List Byte → Int}
    {ms : List Message} (hsent : as.flatMap (uploads i) = ms.flatMap (Message.handed c accept))
    (hasked : (reads i t.history).map (fun r => (r.1.blocking, r.1.size)) <+: ms.map fun m => (true, m.size.val + 2)) :
    (reads i t.history).map (·.2) = (ms.map Message.frame).take (reads i t.history).length ∧
      ∀ r ∈ reads i t.history, frameOk r.2 = true := by
  have hall : as.flatMap (uploads i) = taken i t.history ++ (t.reg.fifo i ++ t.inFlight i) := by
    rw [← List.append_assoc, (received_eq_iff h0 hrun i).mpr hlost, (bytes_kept_iff h0 hrun i).mpr hkept]
  have hwhole := (inStep_run h0 hone hkept hrun).whole
  have hblocks : (reads i t.history).map (·.2.length) = (reads i t.history).map (·.1.size) := by
    refine List.map_congr_left ?_
    intro r hr
    refine hwhole r hr ?_
    have hmem := hasked.subset (List.mem_map_of_mem hr)
    obtain ⟨m, -, hm⟩ := List.mem_map.mp hmem
    exact (congrArg Prod.fst hm).symm
  have hlen : ((reads i t.history).map (·.2)).map List.length <+: (ms.map Message.frame).map List.length := by
    have hsizes := hasked.map Prod.snd
    simp only [List.map_map, Function.comp_def, Message.length_frame] at hsizes ⊢
    rw [hblocks]
    exact hsizes
  have hflat : (ms.map Message.frame).flatten =
      ((reads i t.history).map (·.2)).flatten ++ (t.reg.fifo i ++ t.inFlight i) := by
    rw [← List.flatMap_def, ← List.flatMap_def, ← taken_eq_flatMap, ← hall, hsent]
    exact List.flatMap_congr fun m _ => (m.handed_eq hc accept).symm
  have htake := eq_take_of_lengths hlen hflat
  rw [List.length_map] at htake
  refine ⟨htake, ?_⟩
  intro r hr
  have hmem : r.2 ∈ (ms.map Message.frame).take (reads i t.history).length := htake ▸ List.mem_map_of_mem hr
  obtain ⟨m, -, hm⟩ := List.mem_map.mp (List.mem_of_mem_take hmem)
  rw [← hm]
  exact frameOk_trailer m.payload

theorem one_small : (toSizeT 1).val < 2 ^ 31 - 2 := by decide

def oneByte : Message := ⟨memOf [7], toSizeT 1, one_small⟩

/-- The frame of one byte arrives in two pieces while a thread waits for it. -/
def aFrame : List Act :=
  connect 4 ++ [.handler 0 .go, .user 0 (.read ⟨4, 3, true, true⟩), .user 0 .go, .world (.sends 4 oneByte.frame),
    .handler 0 (.data 1), .handler 0 .go, .handler 0 .go, .user 0 .go, .handler 0 (.data 2), .user 0 .go, .user 0 .go,
    .user 0 .go]

theorem frames_arrive_for_one_byte :
    ∃ t, run step started aFrame = some t ∧ reads 4 t.history = [(⟨4, 3, true, true⟩, oneByte.frame)] ∧
      (reads 4 t.history).map (·.2) = ([oneByte].map Message.frame).take (reads 4 t.history).length ∧
        ∀ r ∈ reads 4 t.history, frameOk r.2 = true := by
  have hrun : (run step started aFrame).map (reads 4 ·.history) = some [(⟨4, 3, true, true⟩, oneByte.frame)] := by
    decide +kernel
  obtain ⟨t, ht, hreads⟩ := Option.map_eq_some_iff.mp hrun
  have hone : ∀ a ∈ aFrame, OneConsumer (fun _ => 0) a := by simp [aFrame, connect, OneConsumer]
  have hsent : aFrame.flatMap (uploads 4) = [oneByte].flatMap (Message.handed someClient fun bytes => bytes.length) := by
    decide +kernel
  refine ⟨t, ht, hreads, frames_arrive started_started hone (by decide +kernel) (by decide +kernel) ht rfl hsent ?_⟩
  rw [hreads]
  exact List.prefix_rfl

end ComClient.Server.TCPServer
