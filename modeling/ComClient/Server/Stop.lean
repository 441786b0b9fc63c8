/-
  ComClient.Server.Stop — what `TCPServer::stop` waits for, and what it leaves behind.

  `stop()` clears the flag and joins the handlers it finds in `m_threads`, then the accept
  thread. It closes no client's socket, so a handler inside `recv` learns nothing.

  - `stuck_iff_silent`: a state in which neither `stop()` nor a thread of the server has a
    step is one in which `stop()` joins a handler whose client is silent.
  - `stop_waits_for_the_client`: it stays there until that client acts.
  - `one_silent_client_blocks_stop`: one idle client is enough.
  - `joins_all_of_timely`: `stop()` joins every thread as long as the accept thread enters
    no thread in `m_threads` once the loop over it has begun.
  - `a_late_client_is_left_running`: the accept thread is past its flag check, the loop
    meets no entry, and the handler of the connection runs on.
-/

import ComClient.Server.Threads

namespace ComClient.Server.TCPServer

open ComClient.Lts

variable {s t : TCPServer} {as : List Act}

/-! ## A client that does nothing -/

/-- The handler is inside `recv`, and its client has neither sent nor closed. -/
def Waiting (s : TCPServer) (tid : Tid) : Prop :=
  ∃ fd, s.handlers tid = some ⟨fd, .recv⟩ ∧ s.sockets fd = some ⟨[], none⟩

/-- Steps of the server's threads and of `stop()`, not of a client or a caller. -/
def isServer : Act → Bool
  | .accept _ => true
  | .handler _ _ => true
  | .stop _ => true
  | _ => false

/-- `stop()` has been entered and has not returned, and nothing on the server's side can
    move. -/
structure Stuck (s : TCPServer) : Prop where
  alive : s.fault = none
  entered : s.stop ≠ .idle
  inside : s.stop ≠ .returned
  blocked : ∀ a, isServer a = true → s.step a = none

theorem step_of_alive (hf : s.fault = none) (a : Act) :
    s.step a = match a with
      | .accept a => s.acceptStep a
      | .handler tid a => s.handlerStep tid a
      | .stop a => s.stopStep a
      | .user u a => s.userStep u a
      | .world a => s.worldStep a := by
  cases a <;> simp [step, hf]

/-- The listening socket is non-blocking, so the accept thread always has a step. -/
theorem accept_enabled (hpc : s.accept ≠ .done) : ∃ a, s.acceptStep a ≠ none := by
  cases h : s.accept with
  | done => exact absurd h hpc
  | accept => exact ⟨.error EAGAIN, by simp [acceptStep, h]⟩
  | assign fd tid =>
    rcases hl : s.threads.lookup fd with _ | _ | old
    all_goals exact ⟨.go, by simp [acceptStep, h, hl]⟩
  | check => exact ⟨.go, by simp [acceptStep, h]⟩
  | insertClient fd => exact ⟨.go, by simp [acceptStep, h]⟩
  | setFifo fd => exact ⟨.go, by simp [acceptStep, h]⟩
  | makeMutex fd => exact ⟨.go, by simp [acceptStep, h]⟩
  | startThread fd => exact ⟨.go, by simp [acceptStep, h]⟩
  | notify fd => exact ⟨.go, by simp [acceptStep, h]⟩

/-- `recv` returns once there are bytes or the connection has ended. -/
theorem handler_enabled (ho : Owned s) {tid : Tid} {h : Handler} (hh : s.handlers tid = some h) (hpc : h.pc ≠ .done)
    (hw : ¬ s.Waiting tid) : ∃ a, s.handlerStep tid a ≠ none := by
  obtain ⟨fd, pc⟩ := h
  cases pc with
  | done => exact absurd rfl hpc
  | recv =>
    obtain ⟨c, hc⟩ := Option.ne_none_iff_exists'.mp (ho.isOpen tid fd ⟨.recv, hh, rfl⟩)
    obtain ⟨pending, ended⟩ := c
    by_cases hp : pending = []
    · subst hp
      cases ended with
      | none => exact absurd ⟨fd, hh, hc⟩ hw
      | some e => cases e <;> exact ⟨.ended, by simp [handlerStep, hh, hc]⟩
    · have hlen : 1 ≤ pending.length := List.length_pos_iff.mpr hp
      exact ⟨.data 1, by simp [handlerStep, hh, hc, hlen]⟩
  | check => exact ⟨.go, by simp [handlerStep, hh]⟩
  | callback chunk => exact ⟨.go, by simp [handlerStep, hh]⟩
  | close => exact ⟨.go, by simp [handlerStep, hh]⟩
  | eraseClient => exact ⟨.go, by simp [handlerStep, hh]⟩
  | eraseFifo => exact ⟨.go, by simp [handlerStep, hh]⟩
  | eraseMutex => exact ⟨.go, by simp [handlerStep, hh]⟩

theorem handler_of_blocked (ho : Owned s) {tid : Tid} {h : Handler} (hh : s.handlers tid = some h)
    (hblocked : ∀ a, s.handlerStep tid a = none) : h.pc = .done ∨ s.Waiting tid := by
  by_contra hne
  rw [not_or] at hne
  obtain ⟨a, ha⟩ := handler_enabled ho hh hne.1 hne.2
  exact ha (hblocked a)

/-- Apart from the join of a handler that has not ended, `stop()` always has a step, once
    the accept thread is done. -/
theorem stop_of_blocked (hn : Named s) (hentered : s.stop ≠ .idle) (hinside : s.stop ≠ .returned)
    (haccept : s.accept = .done) (hblocked : ∀ a, s.stopStep a = none) :
    ∃ fd tid l h, s.stop = .join fd tid l ∧ s.handlers tid = some h ∧ h.pc ≠ .done := by
  have hgo := hblocked .go
  cases hpc : s.stop with
  | idle => exact absurd hpc hentered
  | returned => exact absurd hpc hinside
  | check => simp [stopStep, hpc] at hgo
  | clear => simp [stopStep, hpc] at hgo
  | begin => simp [stopStep, hpc] at hgo
  | base => simp [stopStep, hpc] at hgo
  | joinAccept => cases hj : s.acceptJoinable <;> simp [stopStep, hpc, haccept, hj] at hgo
  | loop l =>
    cases l with
    | nil => simp [stopStep, hpc] at hgo
    | cons fd l =>
      have hmem : fd ∈ s.threads := hn.todo fd (by rw [hpc]; exact List.mem_cons_self)
      obtain ⟨e, he⟩ := Option.isSome_iff_exists.mp (AList.lookup_isSome.mpr hmem)
      have hvisit := hblocked (.visit fd)
      cases e <;> simp [stopStep, hpc, he] at hvisit
  | join fd tid l =>
    obtain ⟨h, hh⟩ := Option.ne_none_iff_exists'.mp (hn.joining fd tid l hpc)
    refine ⟨fd, tid, l, h, rfl, hh, ?_⟩
    intro hdone
    simp [stopStep, hpc, hh, hdone] at hgo

theorem waiting_blocked {tid : Tid} (hw : s.Waiting tid) (a : HandlerAct) : s.handlerStep tid a = none := by
  obtain ⟨fd, hh, hc⟩ := hw
  cases a with
  | go => simp [handlerStep, hh]
  | ended => simp [handlerStep, hh, hc]
  | data n =>
    simp only [handlerStep, hh, hc]
    refine if_neg ?_
    intro hn
    simp only [List.length_nil] at hn
    omega

theorem done_blocked {tid : Tid} {h : Handler} (hh : s.handlers tid = some h) (hdone : h.pc = .done) (a : HandlerAct) :
    s.handlerStep tid a = none := by
  obtain ⟨fd, pc⟩ := h
  cases hdone
  cases a <;> simp [handlerStep, hh]

theorem join_blocked {fd : Socket} {tid : Tid} {l : List Socket} (hjoin : s.stop = .join fd tid l) (hw : s.Waiting tid)
    (a : StopAct) : s.stopStep a = none := by
  obtain ⟨g, hh, -⟩ := hw
  cases a with
  | call => simp [stopStep, hjoin]
  | go => simp [stopStep, hjoin, hh]
  | visit x => simp [stopStep, hjoin]

theorem stuck_of_silent (hf : s.fault = none) (haccept : s.accept = .done)
    (hall : ∀ tid h, s.handlers tid = some h → h.pc = .done ∨ s.Waiting tid) {fd : Socket} {tid : Tid} {l : List Socket}
    (hjoin : s.stop = .join fd tid l) (hw : s.Waiting tid) : s.Stuck where
  alive := hf
  entered := by rw [hjoin]; exact nofun
  inside := by rw [hjoin]; exact nofun
  blocked a ha := by
    rw [step_of_alive hf]
    cases a with
    | accept a => cases a <;> simp [acceptStep, haccept]
    | handler g a =>
      cases hh : s.handlers g with
      | none => simp [handlerStep, hh]
      | some h =>
        rcases hall g h hh with hdone | hg
        · exact done_blocked hh hdone a
        · exact waiting_blocked hg a
    | stop a => exact join_blocked hjoin hw a
    | user u a => cases ha
    | world a => cases ha

/-- In every state a run reaches: nothing on the server's side can move and `stop()` has
    not returned if and only if `stop()` joins the handler of a silent client, and the other
    threads of the server have ended or wait for silent clients too. -/
theorem stuck_iff_silent (h0 : Started s) (hrun : run step s as = some t) :
    t.Stuck ↔ t.fault = none ∧ t.accept = .done ∧
      (∀ tid h, t.handlers tid = some h → h.pc = .done ∨ t.Waiting tid) ∧
      ∃ fd tid l, t.stop = .join fd tid l ∧ t.Waiting tid := by
  have ho := owned_run h0 hrun
  have hn := named_run h0 hrun
  constructor
  · intro hs
    have hblocked : ∀ a, isServer a = true → _ := fun a ha => (step_of_alive hs.alive a).symm.trans (hs.blocked a ha)
    have haccept : t.accept = .done := by
      by_contra hpc
      obtain ⟨a, ha⟩ := accept_enabled hpc
      exact ha (hblocked (.accept a) rfl)
    have hall : ∀ tid h, t.handlers tid = some h → h.pc = .done ∨ t.Waiting tid := fun tid h hh =>
      handler_of_blocked ho hh fun a => hblocked (.handler tid a) rfl
    obtain ⟨fd, tid, l, h, hjoin, hh, hpc⟩ :=
      stop_of_blocked hn hs.entered hs.inside haccept fun a => hblocked (.stop a) rfl
    exact ⟨hs.alive, haccept, hall, fd, tid, l, hjoin, (hall tid h hh).resolve_left hpc⟩
  · intro h
    obtain ⟨hf, haccept, hall, fd, tid, l, hjoin, hw⟩ := h
    exact stuck_of_silent hf haccept hall hjoin hw

def silentClient : List Act :=
  connect 4 ++ [.handler 0 .go, .stop .call, .stop .go, .stop .go, .stop .go, .stop (.visit 4), .accept .go, .accept .go]

theorem silentClient_run :
    ∃ t, run step started silentClient = some t ∧ t.fault = none ∧ t.accept = .done ∧ t.stop = .join 4 0 [] ∧
      t.next = 1 ∧ t.handlers 0 = some ⟨4, .recv⟩ ∧ t.sockets 4 = some ⟨[], none⟩ := by
  have hrun : (run step started silentClient).map
      (fun t => ((t.fault, t.accept, t.stop), t.next, t.handlers 0, t.sockets 4)) =
      some ((none, .done, .join 4 0 []), 1, some ⟨4, .recv⟩, some ⟨[], none⟩) := by decide +kernel
  obtain ⟨t, ht, heq⟩ := Option.map_eq_some_iff.mp hrun
  simp only [Prod.mk.injEq, and_assoc] at heq
  exact ⟨t, ht, heq⟩

theorem stuck_iff_silent_for_one_client :
    ∃ t, run step started silentClient = some t ∧ (t.Stuck ↔ t.fault = none ∧ t.accept = .done ∧
      (∀ tid h, t.handlers tid = some h → h.pc = .done ∨ t.Waiting tid) ∧
      ∃ fd tid l, t.stop = .join fd tid l ∧ t.Waiting tid) := by
  obtain ⟨t, ht, -⟩ := silentClient_run
  exact ⟨t, ht, stuck_iff_silent started_started ht⟩

/-- One client connects and does nothing; `stop()` is called and does not return. -/
theorem one_silent_client_blocks_stop : ∃ t, run step started silentClient = some t ∧ t.Stuck := by
  obtain ⟨t, ht, hf, haccept, hstop, hnext, hh, hc⟩ := silentClient_run
  have hw : t.Waiting 0 := ⟨4, hh, hc⟩
  refine ⟨t, ht, stuck_of_silent hf haccept ?_ hstop hw⟩
  intro tid h htid
  rcases Nat.eq_zero_or_pos tid with rfl | hpos
  · exact Or.inr hw
  · rw [(owned_run started_started ht).unused tid (hnext.symm ▸ hpos)] at htid
    cases htid

/-- What the handler waits for. -/
def wakes (fd : Socket) : Act → Bool
  | .world (.sends g _) => g == fd
  | .world (.closes g) => g == fd
  | .world (.fails g _) => g == fd
  | _ => false

/-- `stop()` joins a handler that waits for the client of `fd`. -/
structure Joining (s : TCPServer) (i : Socket) (tid : Tid) (l : List Socket) (fd : Socket) : Prop where
  stop : s.stop = .join i tid l
  recv : s.handlers tid = some ⟨fd, .recv⟩
  silent : s.sockets fd = some ⟨[], none⟩

theorem joining_step {i fd : Socket} {tid : Tid} {l : List Socket} {a : Act} (h : Joining s i tid l fd) (ho : Owned s)
    (ha : wakes fd a = false) (hs : s.step a = some t) : Joining t i tid l fd := by
  have hown : s.Owns tid fd := ⟨.recv, h.recv, rfl⟩
  have hne : tid ≠ s.next := ho.ne_next h.recv
  have hw : s.Waiting tid := ⟨fd, h.recv, h.silent⟩
  obtain ⟨hf, hcases⟩ := step_cases hs
  rw [step_of_alive hf] at hs
  cases a with
  | accept a =>
    cases hcases
    case startThread g hpc =>
      refine ⟨h.stop, ?_, h.silent⟩
      simp only [setHandler, upd_ne _ _ hne]
      exact h.recv
    case connection g hpc hfree =>
      refine ⟨h.stop, h.recv, ?_⟩
      have hg : fd ≠ (g : Socket) := by
        rintro rfl
        exact ho.isOpen tid g hown hfree.1.2
      simp only [setSocket, upd_ne _ _ hg]
      exact h.silent
    all_goals exact ⟨h.stop, h.recv, h.silent⟩
  | handler g a =>
    by_cases hg : g = tid
    · subst hg
      cases (waiting_blocked hw a).symm.trans hs
    · obtain ⟨_, _, _, -, -, hup⟩ := HandlerStep.move hcases
      have hsocket := HandlerStep.sockets_of_not_owns hcases fun hown' => hg (ho.unique g tid fd hown' hown)
      refine ⟨(HandlerStep.same hcases).stop ▸ h.stop, ?_, hsocket ▸ h.silent⟩
      rw [hup, upd_ne _ _ (Ne.symm hg)]
      exact h.recv
  | stop a =>
    cases (join_blocked h.stop hw a).symm.trans hs
  | user u a =>
    have hsame := UserStep.same hcases
    exact ⟨hsame.stop ▸ h.stop, UserStep.handlers hcases ▸ h.recv, UserStep.sockets hcases ▸ h.silent⟩
  | world a =>
    have hsame := WorldStep.same hcases
    refine ⟨hsame.stop ▸ h.stop, WorldStep.handlers hcases ▸ h.recv, ?_⟩
    cases hcases
    case opens => exact h.silent
    case shuts => exact h.silent
    all_goals
      have hg := ne_of_beq_false ha
      simp only [setSocket, upd_ne _ _ (Ne.symm hg)]
      exact h.silent

/-- Once `stop()` joins the handler of a silent client, it returns only after that client
    has sent something or closed. -/
theorem stop_waits_for_the_client {u : TCPServer} {bs : List Act} {i fd : Socket} {tid : Tid} {l : List Socket}
    (h0 : Started s) (hrun : run step s as = some t) (hj : Joining t i tid l fd) (hrun' : run step t bs = some u)
    (hsilent : ∀ a ∈ bs, wakes fd a = false) : u.stop = .join i tid l := by
  have hboth : Owned u ∧ Joining u i tid l fd := by
    refine run_invariant_of_meets (I := fun s => Owned s ∧ Joining s i tid l fd) ?_ ⟨owned_run h0 hrun, hj⟩
      (meets_of_forall hsilent) hrun'
    intro s a t h ha hs
    exact ⟨owned_step h.1 hs, joining_step h.2 h.1 ha hs⟩
  exact hboth.2.stop

/-! ## A client that comes late -/

/-- `stop()` has not cleared the flag yet. -/
def flagSet : StopPc → Bool
  | .idle => true
  | .check => true
  | .clear => true
  | _ => false

/-- `stop()` has begun its loop over `m_threads`. -/
def begun : StopPc → Bool
  | .loop _ => true
  | .join _ _ _ => true
  | .joinAccept => true
  | .base => true
  | .returned => true
  | _ => false

/-- `stop()` has left its loop over `m_threads`. -/
def left : StopPc → Bool
  | .joinAccept => true
  | .base => true
  | .returned => true
  | _ => false

/-- `stop()` has joined the accept thread. -/
def acceptJoined : StopPc → Bool
  | .base => true
  | .returned => true
  | _ => false

structure Order (s : TCPServer) : Prop where
  running : flagSet s.stop = true → s.running = true
  joinable : acceptJoined s.stop = false → s.acceptJoinable = true
  done : acceptJoined s.stop = true → s.accept = .done

/-- Each handler has ended, or its entry is joinable, or will be. -/
structure Tracked (s : TCPServer) : Prop where
  handlers : ∀ tid h, s.handlers tid = some h → h.pc = .done ∨ s.Joinable h.fd tid ∨ s.accept = .assign h.fd tid
  joining : ∀ fd tid l, s.stop = .join fd tid l → s.Joinable fd tid

/-- Once the loop has begun it has yet to meet every joinable entry. -/
def Covered (s : TCPServer) : Prop :=
  begun s.stop = true → ∀ fd tid, s.Joinable fd tid → fd ∈ todo s.stop ∨ ∃ l, s.stop = .join fd tid l

/-- The accept thread is about to enter a thread in `m_threads`. -/
def entering : AcceptPc → Bool
  | .assign _ _ => true
  | _ => false

/-- Every handler that was started has ended and been joined. -/
structure AllJoined (s : TCPServer) : Prop where
  entries : ∀ fd tid, ¬ s.Joinable fd tid
  handlers : ∀ tid h, s.handlers tid = some h → h.pc = .done

/-- The step enters no thread in `m_threads` while `p` holds of `stop()`. -/
def EntersNone (p : StopPc → Bool) (s : TCPServer) (a : Act) : Prop :=
  a = .accept .go → entering s.accept = true → p s.stop = false

instance (p : StopPc → Bool) (s : TCPServer) (a : Act) : Decidable (EntersNone p s a) :=
  inferInstanceAs (Decidable (_ → _ → _))

theorem order_same (h : Order s) (hs : Same s t) : Order t where
  running hp := hs.running ▸ h.running (hs.stop ▸ hp)
  joinable hp := hs.acceptJoinable ▸ h.joinable (hs.stop ▸ hp)
  done hp := hs.accept ▸ h.done (hs.stop ▸ hp)

theorem order_stopStep {a : StopAct} (h : Order s) (hs : StopStep s a t) : Order t := by
  have hset : ∀ {pc : StopPc}, s.stop = pc → flagSet pc = true → s.running = true := by
    rintro _ rfl
    exact h.running
  -- where the next place is not past that point there is nothing to show
  have hno : ∀ {P : Prop}, false = true → P := fun hp => absurd hp Bool.false_ne_true
  have hkeep : ∀ {pc : StopPc}, s.stop = pc → acceptJoined pc = false → s.acceptJoinable = true := by
    rintro _ rfl
    exact h.joinable
  cases hs with
  | call hpc => exact ⟨fun _ => hset hpc rfl, fun _ => hkeep hpc rfl, hno⟩
  | check hpc =>
    have hr := hset hpc rfl
    rw [if_pos hr]
    exact ⟨fun _ => hr, fun _ => hkeep hpc rfl, hno⟩
  | clear hpc => exact ⟨hno, fun _ => hkeep hpc rfl, hno⟩
  | begin hpc => exact ⟨hno, fun _ => hkeep hpc rfl, hno⟩
  | joined hpc => exact ⟨hno, fun _ => hkeep hpc rfl, hno⟩
  | join fd tid l g hpc hdone => exact ⟨hno, fun _ => hkeep hpc rfl, hno⟩
  | visit fd tid l hpc hj => exact ⟨hno, fun _ => hkeep hpc rfl, hno⟩
  | skip fd l hpc hl => exact ⟨hno, fun _ => hkeep hpc rfl, hno⟩
  | joinAccept hpc hj hd => exact ⟨hno, fun hp => hno hp.symm, fun _ => hd⟩
  | noAccept hpc hj =>
    rw [hkeep hpc rfl] at hj
    cases hj
  | base hpc => exact ⟨hno, fun hp => hno hp.symm, fun _ => h.done (by rw [hpc]; rfl)⟩

theorem order_step {a : Act} (h : Order s) (hs : s.step a = some t) : Order t := by
  obtain ⟨-, hs⟩ := step_cases hs
  cases a with
  | accept a =>
    obtain ⟨hr, hstop, hj, hnot⟩ := AcceptStep.stop hs
    refine ⟨fun hp => hr ▸ h.running (hstop ▸ hp), fun hp => hj ▸ h.joinable (hstop ▸ hp), ?_⟩
    intro hp
    exact absurd (h.done (hstop ▸ hp)) hnot
  | handler tid a => exact order_same h (HandlerStep.same hs)
  | stop a => exact order_stopStep h hs
  | user u a => exact order_same h (UserStep.same hs)
  | world a => exact order_same h (WorldStep.same hs)

/-- A step of the accept thread that starts no handler and enters none. -/
theorem tracked_frame (h : Tracked s) (hpc : entering s.accept = false) (hh : t.handlers = s.handlers)
    (ht : t.threads = s.threads) (hs : t.stop = s.stop) : Tracked t where
  handlers tid x hx := by
    rw [joinable_congr ht]
    rcases h.handlers tid x (hh ▸ hx) with hd | hj | ha
    · exact Or.inl hd
    · exact Or.inr (Or.inl hj)
    · rw [ha] at hpc
      cases hpc
  joining fd tid l hj := (joinable_congr ht).mpr (h.joining fd tid l (hs ▸ hj))

theorem tracked_acceptStep {a : AcceptAct} (h : Tracked s) (hs : AcceptStep s a t) : Tracked t := by
  cases hs with
  | check hpc => exact tracked_frame h (by rw [hpc]; rfl) rfl rfl rfl
  | insertClient fd hpc => exact tracked_frame h (by rw [hpc]; rfl) rfl rfl rfl
  | setFifo fd hpc => exact tracked_frame h (by rw [hpc]; rfl) rfl rfl rfl
  | makeMutex fd hpc => exact tracked_frame h (by rw [hpc]; rfl) rfl rfl rfl
  | notify fd hpc => exact tracked_frame h (by rw [hpc]; rfl) rfl rfl rfl
  | connection fd hpc hfree => exact tracked_frame h (by rw [hpc]; rfl) rfl rfl rfl
  | error e hpc => exact tracked_frame h (by rw [hpc]; rfl) rfl rfl rfl
  | terminate fd tid old hpc hold => exact ⟨h.handlers, h.joining⟩
  | startThread fd hpc =>
    refine ⟨?_, h.joining⟩
    intro tid x hx
    rcases upd_eq_some.mp hx with ⟨rfl, rfl⟩ | ⟨-, hx⟩
    · exact Or.inr (Or.inr rfl)
    · rcases h.handlers tid x hx with hd | hj | ha
      · exact Or.inl hd
      · exact Or.inr (Or.inl hj)
      · rw [hpc] at ha
        cases ha
  | assign fd tid hpc hnone =>
    have hkeep : ∀ {g : Socket} {tid' : Tid}, s.Joinable g tid' →
        ({ s with threads := s.threads.insert fd (some tid) } : TCPServer).Joinable g tid' := by
      intro g tid' hj
      refine (joinable_insert rfl).mpr (Or.inr ⟨?_, hj⟩)
      rintro rfl
      exact hnone tid' hj
    refine ⟨?_, fun g tid' l hstop => hkeep (h.joining g tid' l hstop)⟩
    intro tid' x hx
    rcases h.handlers tid' x hx with hd | hj | ha
    · exact Or.inl hd
    · exact Or.inr (Or.inl (hkeep hj))
    · rw [hpc] at ha
      cases ha
      exact Or.inr (Or.inl ((joinable_insert rfl).mpr (Or.inl ⟨rfl, rfl⟩)))

theorem tracked_handlerStep {tid : Tid} {a : HandlerAct} (h : Tracked s) (hs : HandlerStep s tid a t) : Tracked t := by
  have hsame := HandlerStep.same hs
  refine ⟨?_, fun fd g l hj => (joinable_congr hsame.threads).mpr (h.joining fd g l (hsame.stop ▸ hj))⟩
  intro g x hx
  rw [joinable_congr hsame.threads, hsame.accept]
  obtain ⟨fd, pc, pc', hh, hgoes, hup⟩ := HandlerStep.move hs
  rw [hup] at hx
  rcases upd_eq_some.mp hx with ⟨rfl, hh'⟩ | ⟨-, hx⟩
  · subst hh'
    have hpc : pc ≠ .done := by
      rintro rfl
      cases hgoes
    exact Or.inr ((h.handlers g _ hh).resolve_left hpc)
  · exact h.handlers g x hx

/-- `stop()` forgets an entry only when its handler has ended. -/
theorem tracked_stopStep {a : StopAct} (h : Tracked s) (hs : StopStep s a t) : Tracked t := by
  cases hs with
  | join fd tid l g hpc hdone =>
    have hold := h.joining fd tid l hpc
    refine ⟨?_, fun _ _ _ hstop => (by cases hstop)⟩
    intro tid' x hx
    rcases h.handlers tid' x hx with hd | hj | ha
    · exact Or.inl hd
    · by_cases e : x.fd = fd
      · have htid := joinable_unique hold (e ▸ hj)
        subst htid
        rw [show s.handlers tid = some x from hx] at hdone
        cases hdone
        exact Or.inl rfl
      · exact Or.inr (Or.inl ((joinable_insert rfl).mpr (Or.inr ⟨e, hj⟩)))
    · exact Or.inr (Or.inr ha)
  | visit fd tid l hpc hj =>
    refine ⟨h.handlers, ?_⟩
    intro g tid' l' hstop
    cases hstop
    exact hj
  | check hpc =>
    refine ⟨h.handlers, ?_⟩
    intro g tid' l' hstop
    dsimp only at hstop
    split at hstop <;> cases hstop
  | call hpc => exact ⟨h.handlers, fun _ _ _ hstop => (by cases hstop)⟩
  | clear hpc => exact ⟨h.handlers, fun _ _ _ hstop => (by cases hstop)⟩
  | begin hpc => exact ⟨h.handlers, fun _ _ _ hstop => (by cases hstop)⟩
  | joined hpc => exact ⟨h.handlers, fun _ _ _ hstop => (by cases hstop)⟩
  | joinAccept hpc hj hd => exact ⟨h.handlers, fun _ _ _ hstop => (by cases hstop)⟩
  | noAccept hpc hj => exact ⟨h.handlers, fun _ _ _ hstop => (by cases hstop)⟩
  | base hpc => exact ⟨h.handlers, fun _ _ _ hstop => (by cases hstop)⟩
  | skip fd l hpc hl => exact ⟨h.handlers, fun _ _ _ hstop => (by cases hstop)⟩

theorem tracked_same (h : Tracked s) (hs : Same s t) (hh : t.handlers = s.handlers) : Tracked t where
  handlers tid x hx := by
    rw [joinable_congr hs.threads, hs.accept]
    exact h.handlers tid x (hh ▸ hx)
  joining fd tid l hj := (joinable_congr hs.threads).mpr (h.joining fd tid l (hs.stop ▸ hj))

theorem tracked_step {a : Act} (h : Tracked s) (hs : s.step a = some t) : Tracked t := by
  obtain ⟨-, hs⟩ := step_cases hs
  cases a with
  | accept a => exact tracked_acceptStep h hs
  | handler tid a => exact tracked_handlerStep h hs
  | stop a => exact tracked_stopStep h hs
  | user u a => exact tracked_same h (UserStep.same hs) (UserStep.handlers hs)
  | world a => exact tracked_same h (WorldStep.same hs) (WorldStep.handlers hs)

theorem Covered.met (h : Covered s) {pc : StopPc} (hpc : s.stop = pc) (hb : begun pc = true) {fd : Socket} {tid : Tid}
    (hj : s.Joinable fd tid) : fd ∈ todo pc ∨ ∃ l, pc = .join fd tid l := by
  subst hpc
  exact h hb fd tid hj

/-- With nothing left to meet and nothing to join, no entry is joinable. -/
theorem Covered.not_joinable (h : Covered s) {pc : StopPc} (hpc : s.stop = pc) (hb : begun pc = true)
    (htodo : todo pc = []) (hjoin : ∀ fd tid l, pc ≠ .join fd tid l) (fd : Socket) (tid : Tid) : ¬ s.Joinable fd tid := by
  intro hj
  rcases h.met hpc hb hj with hmem | ⟨l, hl⟩
  · rw [htodo] at hmem
    cases hmem
  · exact hjoin fd tid l hl

theorem covered_stopStep {a : StopAct} (h : Covered s) (ho : Order s) (hs : StopStep s a t) : Covered t := by
  cases hs with
  | call hpc => exact nofun
  | check hpc =>
    rw [if_pos (ho.running (by rw [hpc]; rfl))]
    exact nofun
  | clear hpc => exact nofun
  | begin hpc =>
    intro _ fd tid hj
    have hmem : fd ∈ s.threads := AList.lookup_isSome.mp (Option.isSome_iff_exists.mpr ⟨_, hj⟩)
    exact Or.inl (AList.mem_keys.mp hmem)
  | visit g tid l hpc hg =>
    intro _ fd tid' hj
    by_cases e : fd = g
    · subst e
      have htid := joinable_unique hg hj
      subst htid
      exact Or.inr ⟨_, rfl⟩
    · rcases h.met hpc rfl hj with hmem | ⟨l', hl⟩
      · exact Or.inl ((List.mem_erase_of_ne e).mpr hmem)
      · cases hl
  | skip g l hpc hg =>
    intro _ fd tid' hj
    have e : fd ≠ g := by
      rintro rfl
      cases hg.symm.trans hj
    rcases h.met hpc rfl hj with hmem | ⟨l', hl⟩
    · exact Or.inl ((List.mem_erase_of_ne e).mpr hmem)
    · cases hl
  | join g tid l g' hpc hdone =>
    intro _ fd tid' hj
    rcases (joinable_insert rfl).mp hj with ⟨-, hnone⟩ | ⟨e, hj⟩
    · cases hnone
    · rcases h.met hpc rfl hj with hmem | ⟨l', hl⟩
      · exact Or.inl hmem
      · cases hl
        exact absurd rfl e
  | joined hpc =>
    intro _ fd tid hj
    exact absurd hj (h.not_joinable hpc rfl rfl nofun fd tid)
  | joinAccept hpc hj hd =>
    intro _ fd tid hj
    exact absurd hj (h.not_joinable hpc rfl rfl nofun fd tid)
  | noAccept hpc hj =>
    intro _ fd tid hj
    exact absurd hj (h.not_joinable hpc rfl rfl nofun fd tid)
  | base hpc =>
    intro _ fd tid hj
    exact absurd hj (h.not_joinable hpc rfl rfl nofun fd tid)

theorem covered_frame (h : Covered s) (ht : t.threads = s.threads) (hs : t.stop = s.stop) : Covered t := by
  intro hb fd tid hj
  rw [hs] at hb ⊢
  exact h hb fd tid ((joinable_congr ht).mp hj)

theorem covered_step {a : Act} (h : Covered s) (ho : Order s) (ha : EntersNone begun s a) (hs : s.step a = some t) :
    Covered t := by
  obtain ⟨-, hs⟩ := step_cases hs
  cases a with
  | accept a =>
    cases hs
    case assign fd tid hpc hnone =>
      intro hb
      have hnot := ha rfl (by rw [hpc]; rfl)
      rw [hnot] at hb
      cases hb
    all_goals exact covered_frame h rfl rfl
  | handler tid a => exact covered_frame h (HandlerStep.same hs).threads (HandlerStep.same hs).stop
  | stop a => exact covered_stopStep h ho hs
  | user u a => exact covered_frame h (UserStep.same hs).threads (UserStep.same hs).stop
  | world a => exact covered_frame h (WorldStep.same hs).threads (WorldStep.same hs).stop

theorem order_started (h0 : Started s) : Order s where
  running _ := h0.running
  joinable _ := h0.acceptJoinable
  done hp := by rw [h0.stop] at hp; cases hp

theorem tracked_started (h0 : Started s) : Tracked s where
  handlers tid h hh := by rw [h0.handlers] at hh; cases hh
  joining fd tid l hj := by rw [h0.stop] at hj; cases hj

theorem covered_run (h0 : Started s) (hrun : run step s as = some t) (hok : Meets step (EntersNone begun) s as) :
    Covered t := by
  have hboth : Covered t ∧ Order t := by
    refine run_invariant_of_meets (I := fun s => Covered s ∧ Order s) ?_ ?_ hok hrun
    · intro s a t h ha hs
      exact ⟨covered_step h.1 h.2 ha hs, order_step h.2 hs⟩
    · refine ⟨?_, order_started h0⟩
      intro hb
      rw [h0.stop] at hb
      cases hb
  exact hboth.1

/-! ### An entry that the loop did not meet stays -/

def Late (s : TCPServer) : Prop := left s.stop = true ∧ ∃ fd tid, s.Joinable fd tid

theorem late_step {a : Act} (h : Late s) (hs : s.step a = some t) : Late t := by
  obtain ⟨hleft, fd, tid, hj⟩ := h
  obtain ⟨-, hs⟩ := step_cases hs
  cases a with
  | accept a =>
    cases hs
    case assign g tid' hpc hnone =>
      refine ⟨hleft, fd, tid, (joinable_insert rfl).mpr (Or.inr ⟨?_, hj⟩)⟩
      rintro rfl
      exact hnone tid hj
    all_goals exact ⟨hleft, fd, tid, hj⟩
  | handler g a =>
    have hsame := HandlerStep.same hs
    exact ⟨hsame.stop ▸ hleft, fd, tid, (joinable_congr hsame.threads).mpr hj⟩
  | stop a =>
    have hpast : ∀ {pc : StopPc}, s.stop = pc → left pc = true := by
      rintro _ rfl
      exact hleft
    cases hs with
    | joinAccept hpc hjoin hdone => exact ⟨rfl, fd, tid, hj⟩
    | noAccept hpc hjoin => exact ⟨rfl, fd, tid, hj⟩
    | base hpc => exact ⟨rfl, fd, tid, hj⟩
    | call hpc => cases hpast hpc
    | check hpc => cases hpast hpc
    | clear hpc => cases hpast hpc
    | begin hpc => cases hpast hpc
    | visit g tid' l hpc hg => cases hpast hpc
    | skip g l hpc hg => cases hpast hpc
    | join g tid' l x hpc hdone => cases hpast hpc
    | joined hpc => cases hpast hpc
  | user u a =>
    have hsame := UserStep.same hs
    exact ⟨hsame.stop ▸ hleft, fd, tid, (joinable_congr hsame.threads).mpr hj⟩
  | world a =>
    have hsame := WorldStep.same hs
    exact ⟨hsame.stop ▸ hleft, fd, tid, (joinable_congr hsame.threads).mpr hj⟩

theorem late_of_enters {a : Act} (ha : ¬ EntersNone left s a) (hs : s.step a = some t) : Late t := by
  simp only [EntersNone, Classical.not_imp, Bool.not_eq_false] at ha
  obtain ⟨rfl, hpc, hleft⟩ := ha
  obtain ⟨-, hs⟩ := step_cases hs
  cases hs
  case assign g tid' hpc' hnone => exact ⟨hleft, g, tid', (joinable_insert rfl).mpr (Or.inl ⟨rfl, rfl⟩)⟩
  case terminate g tid' old hpc' hold => exact ⟨hleft, g, old, hold⟩
  all_goals
    rename_i hpc'
    rw [hpc'] at hpc
    cases hpc

theorem entersNone_of_no_entry (hnone : ∀ fd tid, ¬ t.Joinable fd tid) (hrun : run step s as = some t) :
    Meets step (EntersNone left) s as := by
  induction as generalizing s with
  | nil => trivial
  | cons a as ih =>
    obtain ⟨m, hm, hrun⟩ := run_cons.mp hrun
    refine (meets_cons hm).mpr ⟨?_, ih hrun⟩
    by_contra ha
    obtain ⟨-, fd, tid, hj⟩ := run_invariant (fun _ _ _ => late_step) (late_of_enters ha hm) hrun
    exact hnone fd tid hj

/-- When `stop()` has returned, every handler has ended and been joined, if the accept
    thread has entered none in `m_threads` since the loop over it began; and only if it has
    entered none since the loop ended. (An entry made during the loop is met by it or not.) -/
theorem joins_all_of_timely (h0 : Started s) (hrun : run step s as = some t) (hret : t.stop = .returned) :
    (Meets step (EntersNone begun) s as → t.AllJoined) ∧ (t.AllJoined → Meets step (EntersNone left) s as) := by
  refine ⟨?_, fun hall => entersNone_of_no_entry hall.entries hrun⟩
  intro hok
  have hnone : ∀ fd tid, ¬ t.Joinable fd tid := (covered_run h0 hrun hok).not_joinable hret rfl rfl nofun
  have haccept : t.accept = .done := by
    have ho : Order t := run_invariant (fun _ _ _ => order_step) (order_started h0) hrun
    exact ho.done (by rw [hret]; rfl)
  have htracked : Tracked t := run_invariant (fun _ _ _ => tracked_step) (tracked_started h0) hrun
  refine ⟨hnone, ?_⟩
  intro tid h hh
  rcases htracked.handlers tid h hh with hd | hj | ha
  · exact hd
  · exact absurd hj (hnone _ _)
  · rw [haccept] at ha
    cases ha

/-- One client comes and goes, then `stop()`. -/
def afterTheClient : List Act :=
  connect 4 ++ [.accept .go] ++ disconnect 4 0 ++
    [.stop .call, .stop .go, .stop .go, .stop .go, .stop (.visit 4), .stop .go, .stop .go, .accept .go, .stop .go,
      .stop .go]

theorem stop_after_the_client_joins_all :
    ∃ t, run step started afterTheClient = some t ∧ Meets step (EntersNone begun) started afterTheClient ∧
      (Meets step (EntersNone begun) started afterTheClient → t.AllJoined) ∧
      (t.AllJoined → Meets step (EntersNone left) started afterTheClient) := by
  have hrun : (run step started afterTheClient).map (·.stop) = some .returned := by decide +kernel
  obtain ⟨t, ht, hret⟩ := Option.map_eq_some_iff.mp hrun
  exact ⟨t, ht, by decide +kernel, joins_all_of_timely started_started ht hret⟩

/-- The accept thread has read the flag; `stop()` clears it and loops over no entry; the
    accept thread takes a connection. -/
def aLateClient : List Act :=
  [.accept .go, .stop .call, .stop .go, .stop .go, .stop .go, .stop .go] ++ (connect 4).tail ++
    [.accept .go, .accept .go, .stop .go, .stop .go]

/-- `stop()` has returned; the entry of the client is joinable and its handler runs. -/
theorem a_late_client_is_left_running :
    ∃ t, run step started aLateClient = some t ∧ t.stop = .returned ∧ t.handlers 0 = some ⟨4, .check⟩ ∧
      ¬ t.AllJoined := by
  have hrun : (run step started aLateClient).map (fun t => (t.stop, t.handlers 0)) =
      some (.returned, some ⟨4, .check⟩) := by decide +kernel
  obtain ⟨t, ht, heq⟩ := Option.map_eq_some_iff.mp hrun
  obtain ⟨hret, hh⟩ := Prod.mk.inj heq
  refine ⟨t, ht, hret, hh, ?_⟩
  intro hall
  cases hall.handlers 0 _ hh

end ComClient.Server.TCPServer
