/-
  ComClient.Server.Drain — how soon a `TCPServer` has taken over what a client sent.

  `recv` returns 1024 bytes at most and may return one at a time; between two calls the
  handler looks at the flag and calls back. Every step of the handler brings it closer to
  having nothing left to receive (`drainRank`), and nobody else moves that connection but
  its client.

  - `pending_bytes_arrive`: until `stop()` is called, and as long as the connection does not
    break, the handler makes no more than three steps a byte, and seven more; when it cannot
    go on, everything that was in flight has been put into the FIFO, in this order, even if
    the client closed meanwhile.
-/

import ComClient.Lts.Rank
import ComClient.Server.Stop
import ComClient.Server.Uplink

namespace ComClient.Server.TCPServer

open ComClient.Transport (Byte)
open ComClient.Lts

variable {s t u : TCPServer} {as bs : List Act} {tid : Tid} {fd : Socket}

/-- The connection does not break, and `stop()` is not called. -/
def Quiet (fd : Socket) (a : Act) : Prop := isStop a = false ∧ ∀ e, a ≠ .world (.fails fd e)

/-! ## Nothing is lost meanwhile -/

theorem conserved_in_flight {a : Act} (i : Socket) (hs : s.step a = some t) (hkept : LosesNothing i s a) :
    received i t.history ++ t.inFlight i = received i s.history ++ s.inFlight i ++ uploads i a := by
  have hmoves := (Mailbox.takes_eq_iff (kernel_step s a t hs) i).mpr ((losesNothing_iff i s a).mpr hkept)
  rw [puts_kernelActs, ← puts_boxActs] at hmoves
  rw [(seen_step i s a t hs).1, List.append_assoc, List.append_assoc, hmoves]

theorem received_grows {a : Act} (i : Socket) (hs : s.step a = some t) :
    received i s.history <+: received i t.history := by
  rw [(seen_step i s a t hs).1]
  exact List.prefix_append _ _

/-- Its handler is in its loop, so nobody closes the connection. -/
theorem losesNothing_of_serving {pc : HandlerPc} {a : Act} (ho : Owned s) (hh : s.handlers tid = some ⟨fd, pc⟩)
    (hpc : serving pc = true) (hq : Quiet fd a) : LosesNothing fd s a := by
  have hown : s.Owns tid fd := ⟨pc, hh, holding_of_serving hpc⟩
  cases a with
  | handler g b =>
    cases b with
    | go =>
      intro hg
      have hsame : g = tid := ho.unique g tid fd ⟨.close, hg, rfl⟩ hown
      subst hsame
      rw [hh] at hg
      cases hg
      cases hpc
    | _ => trivial
  | world b =>
    cases b with
    | fails g e =>
      intro heq
      subst heq
      exact absurd rfl (hq.2 e)
    | _ => trivial
  | _ => trivial

/-- A handler stays where it is while others move. -/
theorem handlers_of_other {x : Handler} {a : Act} (ho : Owned s) (hh : s.handlers tid = some x)
    (hs : s.step a = some t) (ha : ∀ b, a ≠ .handler tid b) : t.handlers tid = some x := by
  obtain ⟨-, hs⟩ := step_cases hs
  cases a with
  | accept b =>
    cases hs
    case startThread g hpc => exact (upd_ne _ _ (ho.ne_next hh)).trans hh
    all_goals exact hh
  | handler g b =>
    have hne : tid ≠ g := by
      intro heq
      subst heq
      exact ha b rfl
    obtain ⟨_, _, _, -, -, hup⟩ := HandlerStep.move hs
    rw [hup, upd_ne _ _ hne]
    exact hh
  | stop b => rw [StopStep.handlers hs]; exact hh
  | user v b => rw [UserStep.handlers hs]; exact hh
  | world b => rw [WorldStep.handlers hs]; exact hh

theorem running_of_noStop {a : Act} (hq : isStop a = false) (hs : s.step a = some t) : t.running = s.running := by
  obtain ⟨-, hs⟩ := step_cases hs
  cases a with
  | accept b => exact (AcceptStep.stop hs).1
  | handler g b => exact (HandlerStep.same hs).running
  | stop b => cases hq
  | user v b => exact (UserStep.same hs).running
  | world b => exact (WorldStep.same hs).running

/-- The connection of `fd` is not broken. -/
def Unbroken (s : TCPServer) (fd : Socket) : Prop := ∀ bytes e, s.sockets fd ≠ some ⟨bytes, some (.error e)⟩

theorem unbroken_step {a : Act} (h : Unbroken s fd) (hq : Quiet fd a) (hs : s.step a = some t) : Unbroken t fd := by
  intro bytes e he
  obtain ⟨-, hs⟩ := step_cases hs
  cases a with
  | accept b =>
    cases hs
    case connection g hpc hfree =>
      rcases upd_eq_some.mp he with ⟨-, hc⟩ | ⟨-, hc⟩
      · cases hc
      · exact h bytes e hc
    all_goals exact h bytes e he
  | handler g b =>
    cases hs
    case close i hh =>
      by_cases hfd : fd = i
      · subst hfd
        cases (upd_same s.sockets fd none).symm.trans he
      · exact h bytes e ((upd_ne s.sockets none hfd).symm.trans he)
    case data i n c hh hc h0 hn hlen =>
      rcases upd_eq_some.mp he with ⟨rfl, hc'⟩ | ⟨-, hc'⟩
      · obtain ⟨pending, ended⟩ := c
        cases hc'
        exact h pending e hc
      · exact h bytes e hc'
    all_goals exact h bytes e he
  | stop b => exact h bytes e (StopStep.sockets hs ▸ he)
  | user v b => exact h bytes e (UserStep.sockets hs ▸ he)
  | world b =>
    cases hs
    case sends i pending more hc =>
      rcases upd_eq_some.mp he with ⟨-, hc'⟩ | ⟨-, hc'⟩
      · cases hc'
      · exact h bytes e hc'
    case closes i pending hc =>
      rcases upd_eq_some.mp he with ⟨-, hc'⟩ | ⟨-, hc'⟩
      · cases hc'
      · exact h bytes e hc'
    case fails i pending e' hc =>
      rcases upd_eq_some.mp he with ⟨rfl, -⟩ | ⟨-, hc'⟩
      · exact hq.2 e' rfl
      · exact h bytes e hc'
    all_goals exact h bytes e he

/-! ## The handler goes on -/

/-- A step of the handler. -/
def movesHandler (tid : Tid) (_ : TCPServer) : Act → Bool
  | .handler g _ => g == tid
  | _ => false

/-- What is left to do once nothing is in flight. -/
def drainPc : HandlerPc → Nat
  | .callback _ => 7
  | .check => 6
  | .recv => 5
  | .close => 4
  | .eraseClient => 3
  | .eraseFifo => 2
  | .eraseMutex => 1
  | .done => 0

/-- Each byte in flight may cost a `recv`, a callback and a check. -/
def drainRank (tid : Tid) (s : TCPServer) : Nat :=
  match s.handlers tid with
  | some ⟨fd, pc⟩ => drainPc pc + if serving pc then 3 * (s.inFlight fd).length else 0
  | none => 0

theorem drainRank_serving {pc : HandlerPc} (hh : s.handlers tid = some ⟨fd, pc⟩) (hpc : serving pc = true) :
    drainRank tid s = drainPc pc + 3 * (s.inFlight fd).length := by
  simp [drainRank, hh, hpc]

theorem drainRank_left {pc : HandlerPc} (hh : s.handlers tid = some ⟨fd, pc⟩) (hpc : serving pc = false) :
    drainRank tid s = drainPc pc := by
  simp [drainRank, hh, hpc]

/-- The handler of `fd`; `bytes` have been received, or will be. -/
structure Draining (tid : Tid) (fd : Socket) (bytes : List Byte) (s : TCPServer) : Prop where
  owned : Owned s
  running : s.running = true
  unbroken : Unbroken s fd
  handler : ∃ pc, s.handlers tid = some ⟨fd, pc⟩ ∧
    bytes <+: received fd s.history ++ if serving pc then s.inFlight fd else []

variable {bytes : List Byte}

/-- While the handler is in its loop, what is in flight stays or is received. -/
theorem prefix_step {pc : HandlerPc} {a : Act} (ho : Owned s) (hh : s.handlers tid = some ⟨fd, pc⟩)
    (hpc : serving pc = true) (hbytes : bytes <+: received fd s.history ++ s.inFlight fd) (hq : Quiet fd a)
    (hs : s.step a = some t) : bytes <+: received fd t.history ++ t.inFlight fd := by
  rw [conserved_in_flight fd hs (losesNothing_of_serving ho hh hpc hq)]
  exact hbytes.trans (List.prefix_append _ _)

theorem length_inFlight_le {pc : HandlerPc} {a : Act} (ho : Owned s) (hh : s.handlers tid = some ⟨fd, pc⟩)
    (hpc : serving pc = true) (hq : Quiet fd a) (hs : s.step a = some t) :
    (t.inFlight fd).length ≤ (s.inFlight fd).length + (uploads fd a).length := by
  have hkept := congrArg List.length (conserved_in_flight fd hs (losesNothing_of_serving ho hh hpc hq))
  have hgrows := (received_grows fd hs).length_le
  simp only [List.length_append] at hkept
  omega

theorem draining_other {a : Act} (h : Draining tid fd bytes s) (hq : Quiet fd a) (ha : ∀ b, a ≠ .handler tid b)
    (hs : s.step a = some t) :
    (∃ pc, t.handlers tid = some ⟨fd, pc⟩ ∧ bytes <+: received fd t.history ++ if serving pc then t.inFlight fd else []) ∧
      drainRank tid t ≤ drainRank tid s + 3 * (uploads fd a).length := by
  obtain ⟨pc, hh, hbytes⟩ := h.handler
  have hh' := handlers_of_other h.owned hh hs ha
  cases hpc : serving pc with
  | true =>
    rw [if_pos hpc] at hbytes
    have hlen := length_inFlight_le h.owned hh hpc hq hs
    refine ⟨⟨pc, hh', ?_⟩, ?_⟩
    · rw [if_pos hpc]
      exact prefix_step h.owned hh hpc hbytes hq hs
    · rw [drainRank_serving hh hpc, drainRank_serving hh' hpc]
      omega
  | false =>
    rw [hpc, if_neg Bool.false_ne_true, List.append_nil] at hbytes
    refine ⟨⟨pc, hh', ?_⟩, ?_⟩
    · rw [hpc, if_neg Bool.false_ne_true, List.append_nil]
      exact hbytes.trans (received_grows fd hs)
    · rw [drainRank_left hh hpc, drainRank_left hh' hpc]
      omega

/-- A step within the loop. -/
theorem draining_inside {pc pc' : HandlerPc} {a : HandlerAct} (h : Draining tid fd bytes s)
    (hs : s.step (.handler tid a) = some t) (hh : s.handlers tid = some ⟨fd, pc⟩) (hpc : serving pc = true)
    (hh' : t.handlers tid = some ⟨fd, pc'⟩) (hpc' : serving pc' = true)
    (hlt : drainPc pc' + 3 * (t.inFlight fd).length < drainPc pc + 3 * (s.inFlight fd).length) :
    (∃ pc, t.handlers tid = some ⟨fd, pc⟩ ∧ bytes <+: received fd t.history ++ if serving pc then t.inFlight fd else []) ∧
      drainRank tid t < drainRank tid s := by
  obtain ⟨pc₀, hh₀, hbytes⟩ := h.handler
  cases hh.symm.trans hh₀
  rw [if_pos hpc] at hbytes
  refine ⟨⟨pc', hh', ?_⟩, ?_⟩
  · rw [if_pos hpc']
    exact prefix_step h.owned hh hpc hbytes ⟨rfl, fun e he => by cases he⟩ hs
  · rw [drainRank_serving hh hpc, drainRank_serving hh' hpc']
    exact hlt

/-- A step after the loop, or out of it when nothing is in flight. -/
theorem draining_outside {pc pc' : HandlerPc} {a : HandlerAct} (h : Draining tid fd bytes s)
    (hs : s.step (.handler tid a) = some t) (hh : s.handlers tid = some ⟨fd, pc⟩)
    (hpc : serving pc = true → s.inFlight fd = []) (hh' : t.handlers tid = some ⟨fd, pc'⟩) (hpc' : serving pc' = false)
    (hlt : drainPc pc' < drainPc pc) :
    (∃ pc, t.handlers tid = some ⟨fd, pc⟩ ∧ bytes <+: received fd t.history ++ if serving pc then t.inFlight fd else []) ∧
      drainRank tid t < drainRank tid s := by
  obtain ⟨pc₀, hh₀, hbytes⟩ := h.handler
  cases hh.symm.trans hh₀
  have hreceived : bytes <+: received fd s.history := by
    cases hserving : serving pc with
    | true => rwa [if_pos hserving, hpc hserving, List.append_nil] at hbytes
    | false => rwa [hserving, if_neg Bool.false_ne_true, List.append_nil] at hbytes
  refine ⟨⟨pc', hh', ?_⟩, ?_⟩
  · rw [hpc', if_neg Bool.false_ne_true, List.append_nil]
    exact hreceived.trans (received_grows fd hs)
  · rw [drainRank_left hh' hpc']
    cases hserving : serving pc with
    | true =>
      rw [drainRank_serving hh hserving]
      omega
    | false =>
      rw [drainRank_left hh hserving]
      exact hlt

theorem draining_own {a : HandlerAct} (h : Draining tid fd bytes s) (hs : s.step (.handler tid a) = some t) :
    (∃ pc, t.handlers tid = some ⟨fd, pc⟩ ∧ bytes <+: received fd t.history ++ if serving pc then t.inFlight fd else []) ∧
      drainRank tid t < drainRank tid s := by
  obtain ⟨pc, hh, -⟩ := h.handler
  have hmoved : ∀ pc', upd s.handlers tid (some ⟨fd, pc'⟩) tid = some ⟨fd, pc'⟩ := fun pc' => upd_same _ _ _
  have hcases := (step_cases hs).2
  cases hcases with
  | check g hg =>
    cases hh.symm.trans hg
    refine draining_inside h hs hh rfl (hmoved _) ?_ ?_
    · simp [h.running, serving]
    · rw [if_pos h.running]
      exact Nat.add_lt_add_right (Nat.lt_succ_self _) _
  | callback g chunk hg =>
    cases hh.symm.trans hg
    exact draining_inside h hs hh rfl (hmoved _) rfl (Nat.add_lt_add_right (Nat.lt_succ_self _) _)
  | data g n c hg hc h0 hn hlen =>
    cases hh.symm.trans hg
    refine draining_inside h hs hh rfl (hmoved _) rfl ?_
    have hbefore : s.inFlight fd = c.pending := by rw [inFlight, hc, Option.elim_some]
    have hafter : (s.setSocket fd (some { c with pending := c.pending.drop n })).inFlight fd = c.pending.drop n := by
      simp [inFlight, setSocket]
    show drainPc (.callback _) + 3 * ((s.setSocket fd (some { c with pending := c.pending.drop n })).inFlight fd).length <
      drainPc .recv + 3 * (s.inFlight fd).length
    rw [hbefore, hafter, List.length_drop]
    simp only [drainPc]
    omega
  | closed g hg hc =>
    cases hh.symm.trans hg
    refine draining_outside h hs hh (fun _ => ?_) (hmoved _) rfl (Nat.lt_succ_self _)
    rw [inFlight, hc, Option.elim_some]
  | failed g e hg hc =>
    cases hh.symm.trans hg
    exact absurd hc (h.unbroken [] e)
  | close g hg =>
    cases hh.symm.trans hg
    exact draining_outside h hs hh (fun hserving => absurd hserving Bool.false_ne_true) (hmoved _) rfl (Nat.lt_succ_self _)
  | eraseClient g hg =>
    cases hh.symm.trans hg
    exact draining_outside h hs hh (fun hserving => absurd hserving Bool.false_ne_true) (hmoved _) rfl (Nat.lt_succ_self _)
  | eraseFifo g hg =>
    cases hh.symm.trans hg
    exact draining_outside h hs hh (fun hserving => absurd hserving Bool.false_ne_true) (hmoved _) rfl (Nat.lt_succ_self _)
  | eraseMutex g hg =>
    cases hh.symm.trans hg
    exact draining_outside h hs hh (fun hserving => absurd hserving Bool.false_ne_true) (hmoved _) rfl (Nat.lt_succ_self _)

theorem draining_step (s : TCPServer) (a : Act) (t : TCPServer) (h : Draining tid fd bytes s) (hq : Quiet fd a)
    (hs : s.step a = some t) : Draining tid fd bytes t ∧
      (if movesHandler tid s a then 1 else 0) + drainRank tid t ≤ drainRank tid s + 3 * (uploads fd a).length := by
  have howned : Owned t := owned_step h.owned hs
  have hrunning : t.running = true := (running_of_noStop hq.1 hs).trans h.running
  have hunbroken : Unbroken t fd := unbroken_step h.unbroken hq hs
  by_cases hmine : ∃ b, a = .handler tid b
  · obtain ⟨b, rfl⟩ := hmine
    obtain ⟨hhandler, hlt⟩ := draining_own h hs
    refine ⟨⟨howned, hrunning, hunbroken, hhandler⟩, ?_⟩
    split <;> omega
  · have hother : ∀ b, a ≠ .handler tid b := fun b hb => hmine ⟨b, hb⟩
    obtain ⟨hhandler, hle⟩ := draining_other h hq hother hs
    refine ⟨⟨howned, hrunning, hunbroken, hhandler⟩, ?_⟩
    have hnot : movesHandler tid s a = false := by
      cases a with
      | handler g b =>
        refine beq_eq_false_iff_ne.mpr ?_
        intro heq
        subst heq
        exact hother b rfl
      | _ => rfl
    rw [hnot, if_neg Bool.false_ne_true]
    omega

theorem sum_uploads (fd : Socket) (as : List Act) :
    (as.map fun a => 3 * (uploads fd a).length).sum = 3 * (as.flatMap (uploads fd)).length := by
  rw [List.sum_map_mul_left, List.length_flatMap]

theorem drainPc_le (pc : HandlerPc) : drainPc pc ≤ 7 := by cases pc <;> simp [drainPc]

/-- From any state that a run reaches, whatever the other threads and clients do, until
    `stop()` is called and as long as the connection does not break: the handler makes no more
    than three steps for each byte in flight and each byte that is sent meanwhile, and seven
    more; and when it cannot go on, all that was in flight has been put into the FIFO after
    what had been before. -/
theorem pending_bytes_arrive {pc : HandlerPc} (h0 : Started s) (hrun : run step s as = some t)
    (hh : t.handlers tid = some ⟨fd, pc⟩) (hpc : serving pc = true) (hr : t.running = true) (hunbroken : Unbroken t fd)
    (hrun' : run step t bs = some u) (hq : ∀ a ∈ bs, Quiet fd a) :
    counted step (movesHandler tid) t bs ≤ 3 * ((t.inFlight fd).length + (bs.flatMap (uploads fd)).length) + 7 ∧
      ((∀ a, u.handlerStep tid a = none) → received fd t.history ++ t.inFlight fd <+: received fd u.history) := by
  have hstart : Draining tid fd (received fd t.history ++ t.inFlight fd) t := by
    refine ⟨owned_run h0 hrun, hr, hunbroken, pc, hh, ?_⟩
    rw [if_pos hpc]
  have hcount := counted_add_rank_le_costs draining_step hstart hq hrun'
  rw [drainRank_serving hh hpc, sum_uploads] at hcount
  have hle := drainPc_le pc
  refine ⟨by omega, ?_⟩
  intro hblocked
  have hend : Draining tid fd (received fd t.history ++ t.inFlight fd) u := by
    refine run_invariant_of_meets ?_ hstart (meets_of_forall hq) hrun'
    intro s a t h ha hs
    exact (draining_step s a t h ha hs).1
  obtain ⟨pc', hh', hbytes⟩ := hend.handler
  rcases handler_of_blocked hend.owned hh' hblocked with hdone | ⟨g, hg, hc⟩
  · cases hdone
    rwa [if_neg (by decide), List.append_nil] at hbytes
  · cases hh'.symm.trans hg
    have hnone : u.inFlight fd = [] := by rw [inFlight, hc, Option.elim_some]
    rwa [if_pos (by decide), hnone, List.append_nil] at hbytes

/-- Five bytes are in flight when the client closes. -/
def fiveBytes : List Act :=
  connect 4 ++ [.handler 0 .go, .world (.sends 4 [1, 2, 3, 4, 5]), .world (.closes 4)]

/-- `recv` returns them in two pieces, and then that the client has closed. -/
def twoPieces : List Act :=
  [.handler 0 (.data 2), .handler 0 .go, .handler 0 .go, .handler 0 (.data 3), .handler 0 .go, .handler 0 .go,
    .handler 0 .ended, .handler 0 .go, .handler 0 .go, .handler 0 .go, .handler 0 .go]

theorem five_bytes_arrive :
    ∃ t u, run step started fiveBytes = some t ∧ run step t twoPieces = some u ∧
      counted step (movesHandler 0) t twoPieces ≤ 3 * ((t.inFlight 4).length + (twoPieces.flatMap (uploads 4)).length) + 7 ∧
      ((∀ a, u.handlerStep 0 a = none) → received 4 t.history ++ t.inFlight 4 <+: received 4 u.history) := by
  have hrun : (run step started fiveBytes).map (fun t => (t.handlers 0, t.running, t.sockets 4)) =
      some (some ⟨4, .recv⟩, true, some ⟨[1, 2, 3, 4, 5], some .closed⟩) := by decide +kernel
  obtain ⟨t, ht, heq⟩ := Option.map_eq_some_iff.mp hrun
  simp only [Prod.mk.injEq] at heq
  obtain ⟨hh, hr, hc⟩ := heq
  have hmore : ((run step started fiveBytes).bind fun t => run step t twoPieces).isSome := by decide +kernel
  rw [ht, Option.bind_some] at hmore
  obtain ⟨u, hu⟩ := Option.isSome_iff_exists.mp hmore
  have hunbroken : Unbroken t 4 := by
    intro bytes e he
    cases hc.symm.trans he
  have hq : ∀ a ∈ twoPieces, Quiet 4 a := by simp [twoPieces, Quiet, isStop]
  exact ⟨t, u, ht, hu, pending_bytes_arrive started_started ht hh rfl hr hunbroken hu hq⟩

end ComClient.Server.TCPServer
