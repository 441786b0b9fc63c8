/-
  ComClient.Server.Notify — the order of the callbacks of a `TCPServer`: the accept
  thread starts the handler of a connection first and calls `m_callback_newClient` after
  that, so the handler may be there before.

  `Watched` is a server with the calls of its callbacks so far, each with the thread that
  handles the connection (descriptors are used again, threads are not); `calls_history`
  connects them with what the server's history says.

  - `told_run`: a connection is notified at most once, and once when the accept thread
    is through with it, in every run.
  - `notified_first_iff_timely`: no connection's data comes before its notification, and
    none goes without one, if and only if no handler gets to its callback while the accept
    thread is between starting it and the notification, and no connection ends the process.
  - `notified_of_patient`: it is so, whatever the threads do, if every client waits for its
    notification before it sends, and none gets a descriptor that `m_threads` has a joinable
    thread for.
-/

import ComClient.Server.Threads
import ComClient.Server.Reuse

namespace ComClient.Server

open ComClient.Transport (Byte)
open ComClient.Lts

/-- A call of `m_callback_newClient` or of `m_callback`, for the connection that `tid` handles. -/
inductive CallbackCall where
  | newClient (tid : Tid) (fd : Socket)
  | data (tid : Tid) (fd : Socket) (chunk : List Byte)
  deriving DecidableEq, Repr

namespace CallbackCall

def announces (tid : Tid) : CallbackCall → Bool
  | .newClient g _ => g = tid
  | .data _ _ _ => false

def event : CallbackCall → Event
  | .newClient _ fd => .newClient fd
  | .data _ fd chunk => .called fd chunk

end CallbackCall

/-- The calls that a step makes. The accept thread notifies the connection whose handler it
    started last. -/
def TCPServer.calling (s : TCPServer) : Act → List CallbackCall
  | .accept .go =>
    match s.accept with
    | .notify fd => if s.hasCallbackNewClient then [.newClient (s.next - 1) fd] else []
    | _ => []
  | .handler tid .go =>
    match s.handlers tid with
    | some ⟨fd, .callback chunk⟩ => if s.hasCallback then [.data tid fd chunk] else []
    | _ => []
  | _ => []

structure Watched where
  server : TCPServer
  calls : List CallbackCall

namespace Watched

def step (w : Watched) (a : Act) : Option Watched :=
  (w.server.step a).map fun t => ⟨t, w.calls ++ w.server.calling a⟩

variable {w v : Watched} {as : List Act}

theorem step_eq_some {a : Act} (h : w.step a = some v) :
    w.server.step a = some v.server ∧ v.calls = w.calls ++ w.server.calling a := by
  obtain ⟨t, ht, rfl⟩ := Option.map_eq_some_iff.mp h
  exact ⟨ht, rfl⟩

/-! ## The connection that is being registered -/

/-- The thread has been started and its connection has not been notified. -/
def Registering (s : TCPServer) (fd : Socket) (tid : Tid) : Prop :=
  s.accept = .assign fd tid ∨ (s.accept = .notify fd ∧ tid + 1 = s.next)

instance (s : TCPServer) (fd : Socket) (tid : Tid) : Decidable (Registering s fd tid) :=
  inferInstanceAs (Decidable (_ ∨ _))

/-- What holds in every run with both callbacks installed. -/
structure Told (w : Watched) : Prop where
  callback : w.server.hasCallback = true
  callbackNewClient : w.server.hasCallbackNewClient = true
  unused : ∀ tid, w.server.next ≤ tid → w.server.handlers tid = none
  notifying : ∀ fd, w.server.accept = .notify fd → 0 < w.server.next
  last : ∀ fd tid, Registering w.server fd tid →
    tid + 1 = w.server.next ∧ ∃ pc, w.server.handlers tid = some ⟨fd, pc⟩
  told : ∀ tid < w.server.next, (∀ fd, ¬ Registering w.server fd tid) → w.calls.countP (·.announces tid) = 1
  untold : ∀ tid, w.server.next ≤ tid ∨ (∃ fd, Registering w.server fd tid) → w.calls.countP (·.announces tid) = 0
  socket : ∀ tid fd, .newClient tid fd ∈ w.calls → ∃ pc, w.server.handlers tid = some ⟨fd, pc⟩

/-- A step that starts no thread and notifies nobody. -/
structure Quiet (w v : Watched) : Prop where
  callback : v.server.hasCallback = w.server.hasCallback
  callbackNewClient : v.server.hasCallbackNewClient = w.server.hasCallbackNewClient
  next : v.server.next = w.server.next
  notifying : ∀ fd, v.server.accept = .notify fd → 0 < v.server.next
  registering : ∀ fd tid, Registering v.server fd tid ↔ Registering w.server fd tid
  unused : ∀ tid, w.server.handlers tid = none → v.server.handlers tid = none
  handlers : ∀ tid fd pc, w.server.handlers tid = some ⟨fd, pc⟩ → ∃ pc', v.server.handlers tid = some ⟨fd, pc'⟩
  calls : ∃ l, v.calls = w.calls ++ l ∧ ∀ tid fd, .newClient tid fd ∉ l

theorem announces_eq_true {tid : Tid} {x : CallbackCall} : x.announces tid = true ↔ ∃ fd, x = .newClient tid fd := by
  cases x with
  | newClient g fd => simp [CallbackCall.announces]
  | data g fd chunk => simp [CallbackCall.announces]

theorem countP_quiet {l : List CallbackCall} (h : ∀ tid fd, .newClient tid fd ∉ l) (tid : Tid) :
    l.countP (·.announces tid) = 0 := by
  refine List.countP_eq_zero.mpr ?_
  intro x hx hann
  obtain ⟨fd, rfl⟩ := announces_eq_true.mp hann
  exact h tid fd hx

theorem told_quiet (h : Told w) (hq : Quiet w v) : Told v := by
  obtain ⟨l, hl, hnone⟩ := hq.calls
  have hcount : ∀ tid, v.calls.countP (·.announces tid) = w.calls.countP (·.announces tid) := by
    intro tid
    rw [hl, List.countP_append, countP_quiet hnone, Nat.add_zero]
  refine ⟨hq.callback.trans h.callback, hq.callbackNewClient.trans h.callbackNewClient, ?_, hq.notifying, ?_, ?_, ?_, ?_⟩
  · intro tid htid
    exact hq.unused tid (h.unused tid (hq.next ▸ htid))
  · intro fd tid hr
    obtain ⟨hnext, pc, hpc⟩ := h.last fd tid ((hq.registering fd tid).mp hr)
    exact ⟨hq.next ▸ hnext, hq.handlers tid fd pc hpc⟩
  · intro tid htid hno
    rw [hcount]
    exact h.told tid (hq.next ▸ htid) fun fd hr => hno fd ((hq.registering fd tid).mpr hr)
  · intro tid hor
    rw [hcount]
    refine h.untold tid ?_
    rcases hor with hle | ⟨fd, hr⟩
    · exact Or.inl (hq.next ▸ hle)
    · exact Or.inr ⟨fd, (hq.registering fd tid).mp hr⟩
  · intro tid fd hmem
    rw [hl, List.mem_append] at hmem
    rcases hmem with hmem | hmem
    · obtain ⟨pc, hpc⟩ := h.socket tid fd hmem
      exact hq.handlers tid fd pc hpc
    · exact absurd hmem (hnone tid fd)

/-! ## Steps -/

theorem calling_handler (s : TCPServer) (g : Tid) (a : HandlerAct) (tid : Tid) (fd : Socket) :
    .newClient tid fd ∉ s.calling (.handler g a) := by
  unfold TCPServer.calling
  cases a with
  | go =>
    dsimp only
    split
    · split <;> simp
    · simp
  | data n => simp
  | ended => simp

theorem step_hasCallbackNewClient {s t : TCPServer} {a : Act} (h : s.step a = some t) :
    t.hasCallbackNewClient = s.hasCallbackNewClient := by
  obtain ⟨-, h⟩ := TCPServer.step_cases h
  cases a with
  | accept a => cases h <;> rfl
  | handler tid a => cases h <;> rfl
  | stop a => cases h <;> rfl
  | user u a => cases h <;> rfl
  | world a => cases h <;> rfl

theorem registering_congr {s t : TCPServer} (ha : t.accept = s.accept) (hn : t.next = s.next) (fd : Socket) (tid : Tid) :
    Registering t fd tid ↔ Registering s fd tid := by
  unfold Registering
  rw [ha, hn]

/-- The other threads leave the accept thread where it is. -/
theorem quiet_of_accept_eq {a : Act} (h : Told w) (hs : w.step a = some v) (ha : v.server.accept = w.server.accept)
    (hn : v.server.next = w.server.next)
    (hunused : ∀ tid, w.server.handlers tid = none → v.server.handlers tid = none)
    (hh : ∀ tid fd pc, w.server.handlers tid = some ⟨fd, pc⟩ → ∃ pc', v.server.handlers tid = some ⟨fd, pc'⟩)
    (hcalls : ∀ tid fd, .newClient tid fd ∉ w.server.calling a) : Quiet w v where
  callback := TCPServer.step_hasCallback (step_eq_some hs).1
  callbackNewClient := step_hasCallbackNewClient (step_eq_some hs).1
  next := hn
  notifying fd hpc := hn ▸ h.notifying fd (ha ▸ hpc)
  registering := registering_congr ha hn
  unused := hunused
  handlers := hh
  calls := ⟨_, (step_eq_some hs).2, hcalls⟩

/-- A step that moves neither the accept thread nor a handler, and announces nobody. -/
theorem told_frame {a : Act} (h : Told w) (hs : w.step a = some v) (ha : v.server.accept = w.server.accept)
    (hn : v.server.next = w.server.next) (hh : v.server.handlers = w.server.handlers)
    (hcalls : w.server.calling a = []) : Told v := by
  refine told_quiet h (quiet_of_accept_eq h hs ha hn ?_ ?_ ?_)
  · intro tid hnone
    rw [hh]
    exact hnone
  · intro tid fd pc hpc
    rw [hh]
    exact ⟨pc, hpc⟩
  · simp [hcalls]

theorem told_handlerStep {tid : Tid} {a : HandlerAct} (h : Told w) (hs : w.step (.handler tid a) = some v) : Told v := by
  have hstep : TCPServer.HandlerStep w.server tid a v.server := (TCPServer.step_cases (step_eq_some hs).1).2
  have hsame := hstep.same
  obtain ⟨fd, pc, pc', hpc, -, hup⟩ := hstep.move
  refine told_quiet h (quiet_of_accept_eq h hs hsame.accept hsame.next ?_ ?_ (calling_handler w.server tid a))
  · intro g hg
    have hne : g ≠ tid := by
      rintro rfl
      rw [hpc] at hg
      cases hg
    rw [hup, upd_ne _ _ hne]
    exact hg
  · intro g fd' p hg
    rw [hup]
    by_cases hne : g = tid
    · subst hne
      rw [hpc] at hg
      cases hg
      exact ⟨pc', upd_same _ _ _⟩
    · rw [upd_ne _ _ hne]
      exact ⟨p, hg⟩

/-- `assign` starts no thread; the connection stays the one that is being registered. -/
theorem told_assign {fd : Socket} {tid : Tid} (h : Told w) (hpc : w.server.accept = .assign fd tid)
    (hs : w.step (.accept .go) = some v) (ha : v.server.accept = .notify fd) (hn : v.server.next = w.server.next)
    (hh : v.server.handlers = w.server.handlers) : Told v := by
  have hnext : tid + 1 = w.server.next := (h.last fd tid (Or.inl hpc)).1
  refine told_quiet h ⟨TCPServer.step_hasCallback (step_eq_some hs).1, step_hasCallbackNewClient (step_eq_some hs).1, hn,
    ?_, ?_, ?_, ?_, ?_⟩
  · intro g _
    rw [hn, ← hnext]
    exact Nat.succ_pos _
  · intro g tid'
    unfold Registering
    rw [ha, hpc, hn, ← hnext]
    simp only [reduceCtorEq, false_or, false_and, or_false, AcceptPc.notify.injEq, AcceptPc.assign.injEq,
      Nat.add_right_cancel_iff]
    constructor
    · rintro ⟨rfl, rfl⟩
      exact ⟨rfl, rfl⟩
    · rintro ⟨rfl, rfl⟩
      exact ⟨rfl, rfl⟩
  · intro g hg
    rw [hh]
    exact hg
  · intro g fd' p hg
    rw [hh]
    exact ⟨p, hg⟩
  · refine ⟨[], ?_, by simp⟩
    rw [(step_eq_some hs).2, TCPServer.calling]
    simp [hpc]

/-- Before the thread is started and after the notification nothing is being registered. -/
theorem told_elsewhere {a : AcceptAct} (h : Told w) (hs : w.step (.accept a) = some v)
    (hcalls : w.server.calling (.accept a) = []) (hbefore : ∀ fd tid, ¬ Registering w.server fd tid)
    (hafter : ∀ fd tid, v.server.accept ≠ .notify fd ∧ v.server.accept ≠ .assign fd tid)
    (hn : v.server.next = w.server.next) (hh : v.server.handlers = w.server.handlers) : Told v := by
  refine told_quiet h ⟨TCPServer.step_hasCallback (step_eq_some hs).1, step_hasCallbackNewClient (step_eq_some hs).1, hn,
    ?_, ?_, ?_, ?_, ?_⟩
  · intro fd hpc
    exact absurd hpc (hafter fd 0).1
  · intro fd tid
    constructor
    · intro hr
      rcases hr with hr | ⟨hr, -⟩
      · exact absurd hr (hafter fd tid).2
      · exact absurd hr (hafter fd tid).1
    · intro hr
      exact absurd hr (hbefore fd tid)
  · intro g hg
    rw [hh]
    exact hg
  · intro g fd' p hg
    rw [hh]
    exact ⟨p, hg⟩
  · exact ⟨[], by rw [(step_eq_some hs).2, hcalls], by simp⟩

theorem not_registering_of {s : TCPServer} {pc : AcceptPc} (hpc : s.accept = pc)
    (h : ∀ fd tid, pc ≠ .notify fd ∧ pc ≠ .assign fd tid) (fd : Socket) (tid : Tid) : ¬ Registering s fd tid := by
  intro hr
  rcases hr with hr | ⟨hr, -⟩
  · exact (h fd tid).2 (hpc ▸ hr)
  · exact (h fd tid).1 (hpc ▸ hr)

theorem told_callbacks {a : Act} (h : Told w) (hs : w.step a = some v) :
    v.server.hasCallback = true ∧ v.server.hasCallbackNewClient = true := by
  have hserver := (step_eq_some hs).1
  exact ⟨(TCPServer.step_hasCallback hserver).trans h.callback,
    (step_hasCallbackNewClient hserver).trans h.callbackNewClient⟩

theorem told_startThread {fd : Socket} (h : Told w) (hpc : w.server.accept = .startThread fd)
    (hs : w.step (.accept .go) = some v) (ha : v.server.accept = .assign fd w.server.next)
    (hn : v.server.next = w.server.next + 1)
    (hh : v.server.handlers = upd w.server.handlers w.server.next (some ⟨fd, .check⟩)) : Told v := by
  have hcalls : v.calls = w.calls := by
    rw [(step_eq_some hs).2, TCPServer.calling]
    simp [hpc]
  have hbefore : ∀ g tid, ¬ Registering w.server g tid :=
    not_registering_of hpc fun _ _ => ⟨nofun, nofun⟩
  have hreg : ∀ g tid, Registering v.server g tid ↔ g = fd ∧ tid = w.server.next := by
    intro g tid
    unfold Registering
    rw [ha]
    simp [eq_comm]
  obtain ⟨hcallback, hclient⟩ := told_callbacks h hs
  refine ⟨hcallback, hclient, ?_, ?_, ?_, ?_, ?_, ?_⟩
  · intro tid htid
    rw [hn] at htid
    rw [hh, upd_ne _ _ (Nat.ne_of_gt htid)]
    exact h.unused tid (Nat.le_of_succ_le htid)
  · intro g _
    rw [hn]
    exact Nat.succ_pos _
  · intro g tid hr
    obtain ⟨rfl, rfl⟩ := (hreg g tid).mp hr
    exact ⟨hn.symm, .check, by rw [hh, upd_same]⟩
  · intro tid htid hno
    rw [hcalls]
    refine h.told tid ?_ (hbefore · tid)
    rw [hn] at htid
    have hne : tid ≠ w.server.next := fun heq => hno fd ((hreg fd tid).mpr ⟨rfl, heq⟩)
    exact lt_of_le_of_ne (Nat.le_of_lt_succ htid) hne
  · intro tid hor
    rw [hcalls]
    refine h.untold tid (Or.inl ?_)
    rcases hor with hle | ⟨g, hr⟩
    · rw [hn] at hle
      exact Nat.le_of_succ_le hle
    · exact Nat.le_of_eq ((hreg g tid).mp hr).2.symm
  · intro tid g hmem
    obtain ⟨pc, hpc'⟩ := h.socket tid g (hcalls ▸ hmem)
    have hne : tid ≠ w.server.next := by
      rintro rfl
      rw [h.unused _ (Nat.le_refl _)] at hpc'
      cases hpc'
    exact ⟨pc, by rw [hh, upd_ne _ _ hne]; exact hpc'⟩

theorem told_notify {fd : Socket} (h : Told w) (hpc : w.server.accept = .notify fd)
    (hs : w.step (.accept .go) = some v) (ha : v.server.accept = .check) (hn : v.server.next = w.server.next)
    (hh : v.server.handlers = w.server.handlers) : Told v := by
  have hpos := h.notifying fd hpc
  have hcalls : v.calls = w.calls ++ [.newClient (w.server.next - 1) fd] := by
    rw [(step_eq_some hs).2, TCPServer.calling]
    simp [hpc, h.callbackNewClient]
  have hlast : Registering w.server fd (w.server.next - 1) := Or.inr ⟨hpc, Nat.sub_add_cancel hpos⟩
  have honly : ∀ g tid, Registering w.server g tid → tid = w.server.next - 1 := by
    intro g tid hr
    have hnext := (h.last g tid hr).1
    exact Nat.eq_sub_of_add_eq hnext
  have hafter : ∀ g tid, ¬ Registering v.server g tid := not_registering_of ha fun _ _ => ⟨nofun, nofun⟩
  obtain ⟨hcallback, hclient⟩ := told_callbacks h hs
  refine ⟨hcallback, hclient, ?_, ?_, ?_, ?_, ?_, ?_⟩
  · intro tid htid
    rw [hh]
    exact h.unused tid (hn ▸ htid)
  · intro g hg
    rw [ha] at hg
    cases hg
  · intro g tid hr
    exact absurd hr (hafter g tid)
  · intro tid htid _
    rw [hcalls, List.countP_append]
    by_cases htid' : tid = w.server.next - 1
    · rw [h.untold tid (Or.inr ⟨fd, htid' ▸ hlast⟩), htid']
      simp [CallbackCall.announces]
    · rw [h.told tid (hn ▸ htid) fun g hr => htid' (honly g tid hr)]
      simp [CallbackCall.announces, Ne.symm htid']
  · intro tid hor
    rcases hor with hle | ⟨g, hr⟩
    · rw [hn] at hle
      have hne : w.server.next - 1 ≠ tid := Nat.ne_of_lt (Nat.lt_of_lt_of_le (Nat.sub_lt hpos Nat.one_pos) hle)
      rw [hcalls, List.countP_append, h.untold tid (Or.inl hle)]
      simp [CallbackCall.announces, hne]
    · exact absurd hr (hafter g tid)
  · intro tid g hmem
    rw [hh]
    rw [hcalls, List.mem_append, List.mem_singleton] at hmem
    rcases hmem with hmem | hmem
    · exact h.socket tid g hmem
    · cases hmem
      exact (h.last fd _ hlast).2

theorem told_acceptStep {a : AcceptAct} (h : Told w) (hs : w.step (.accept a) = some v) : Told v := by
  have hstep : TCPServer.AcceptStep w.server a v.server := (TCPServer.step_cases (step_eq_some hs).1).2
  generalize hv : v.server = t at hstep
  cases hstep with
  | startThread fd hpc => exact told_startThread h hpc hs (by rw [hv]) (by rw [hv]) (by rw [hv]; rfl)
  | assign fd tid hpc hnone => exact told_assign h hpc hs (by rw [hv]) (by rw [hv]) (by rw [hv])
  | notify fd hpc => exact told_notify h hpc hs (by rw [hv]) (by rw [hv]; rfl) (by rw [hv]; rfl)
  | terminate fd tid old hpc hold =>
    exact told_frame h hs (by rw [hv]) (by rw [hv]) (by rw [hv]) (by simp [TCPServer.calling, hpc])
  | check hpc =>
    refine told_elsewhere h hs (by simp [TCPServer.calling, hpc]) (not_registering_of hpc fun _ _ => ⟨nofun, nofun⟩) ?_
      (by rw [hv]) (by rw [hv])
    intro fd tid
    rw [hv]
    dsimp only
    split <;> exact ⟨nofun, nofun⟩
  | error e hpc =>
    refine told_elsewhere h hs rfl (not_registering_of hpc fun _ _ => ⟨nofun, nofun⟩) ?_ (by rw [hv]) (by rw [hv])
    intro fd tid
    rw [hv]
    dsimp only
    split <;> exact ⟨nofun, nofun⟩
  | connection fd hpc hfree =>
    exact told_elsewhere h hs rfl (not_registering_of hpc fun _ _ => ⟨nofun, nofun⟩)
      (fun _ _ => by rw [hv]; exact ⟨nofun, nofun⟩) (by rw [hv]; rfl) (by rw [hv]; rfl)
  | insertClient fd hpc =>
    exact told_elsewhere h hs (by simp [TCPServer.calling, hpc]) (not_registering_of hpc fun _ _ => ⟨nofun, nofun⟩)
      (fun _ _ => by rw [hv]; exact ⟨nofun, nofun⟩) (by rw [hv]) (by rw [hv])
  | setFifo fd hpc =>
    exact told_elsewhere h hs (by simp [TCPServer.calling, hpc]) (not_registering_of hpc fun _ _ => ⟨nofun, nofun⟩)
      (fun _ _ => by rw [hv]; exact ⟨nofun, nofun⟩) (by rw [hv]) (by rw [hv])
  | makeMutex fd hpc =>
    exact told_elsewhere h hs (by simp [TCPServer.calling, hpc]) (not_registering_of hpc fun _ _ => ⟨nofun, nofun⟩)
      (fun _ _ => by rw [hv]; exact ⟨nofun, nofun⟩) (by rw [hv]) (by rw [hv])

theorem told_step {a : Act} (h : Told w) (hs : w.step a = some v) : Told v := by
  have hstep := (TCPServer.step_cases (step_eq_some hs).1).2
  cases a with
  | accept a => exact told_acceptStep h hs
  | handler tid a => exact told_handlerStep h hs
  | stop a =>
    exact told_frame h hs (TCPServer.StopStep.accept hstep) (TCPServer.StopStep.next hstep)
      (TCPServer.StopStep.handlers hstep) rfl
  | user u a =>
    have hsame := TCPServer.UserStep.same hstep
    exact told_frame h hs hsame.accept hsame.next (TCPServer.UserStep.handlers hstep) rfl
  | world a =>
    have hsame := TCPServer.WorldStep.same hstep
    exact told_frame h hs hsame.accept hsame.next (TCPServer.WorldStep.handlers hstep) rfl

/-- Both callbacks are installed before `start()`. -/
structure Installed (s : TCPServer) : Prop where
  started : TCPServer.Started s
  callback : s.hasCallback = true
  callbackNewClient : s.hasCallbackNewClient = true

theorem told_installed {s : TCPServer} (h : Installed s) : Told ⟨s, []⟩ where
  callback := h.callback
  callbackNewClient := h.callbackNewClient
  unused tid _ := h.started.handlers tid
  notifying fd hpc := by cases h.started.accept.symm.trans hpc
  last fd tid hr := absurd hr (not_registering_of h.started.accept (fun _ _ => ⟨nofun, nofun⟩) fd tid)
  told tid htid := by
    have hnext : tid < s.next := htid
    rw [h.started.next] at hnext
    exact absurd hnext (Nat.not_lt_zero tid)
  untold _ _ := rfl
  socket tid fd hmem := absurd hmem (List.not_mem_nil)

theorem told_run {s : TCPServer} (h : Installed s) (hrun : run step ⟨s, []⟩ as = some w) : Told w :=
  run_invariant (fun _ _ _ => told_step) (told_installed h) hrun

/-! ## The calls and the server's history -/

def isCallback : Event → Bool
  | .called _ _ => true
  | .newClient _ => true
  | _ => false

/-- What a step adds to the history of callbacks. -/
theorem history_step {s t : TCPServer} {a : Act} (hs : s.step a = some t) :
    t.history.filter isCallback = s.history.filter isCallback ++ (s.calling a).map CallbackCall.event := by
  obtain ⟨-, hstep⟩ := TCPServer.step_cases hs
  cases a with
  | accept a =>
    cases hstep with
    | notify fd hpc =>
      cases hcb : s.hasCallbackNewClient <;>
        simp [TCPServer.calling, TCPServer.logIf, hpc, hcb, isCallback, CallbackCall.event]
    | connection fd hpc hfree => simp [TCPServer.calling, TCPServer.setSocket]
    | startThread fd hpc => simp [TCPServer.calling, TCPServer.setHandler, hpc]
    | _ => simp [TCPServer.calling, *]
  | handler tid a =>
    cases hstep with
    | callback fd chunk hh =>
      cases hcb : s.hasCallback <;>
        simp [TCPServer.calling, TCPServer.logIf, TCPServer.setHandler, hh, hcb, isCallback, CallbackCall.event]
    | data fd n c hh hc _ _ _ => simp [TCPServer.calling, TCPServer.setHandler, TCPServer.setSocket, TCPServer.log, isCallback]
    | close fd hh => simp [TCPServer.calling, TCPServer.setHandler, TCPServer.setSocket, hh]
    | _ => simp [TCPServer.calling, TCPServer.setHandler, *]
  | stop a => cases hstep <;> simp [TCPServer.calling]
  | user u a => cases hstep <;> simp [TCPServer.calling, TCPServer.setUser, TCPServer.log, isCallback]
  | world a => cases hstep <;> simp [TCPServer.calling, TCPServer.setSocket]

/-- The calls are the callbacks that the server's history records, in that order. -/
theorem calls_history {s : TCPServer} (h : Installed s) (hrun : run step ⟨s, []⟩ as = some w) :
    w.server.history.filter isCallback = w.calls.map CallbackCall.event := by
  refine run_invariant (I := fun w => w.server.history.filter isCallback = w.calls.map CallbackCall.event) ?_ ?_ hrun
  · intro w a v ih hs
    obtain ⟨hstep, hcalls⟩ := step_eq_some hs
    rw [history_step hstep, ih, hcalls, List.map_append]
  · rw [h.started.history]
    rfl

/-- Every run of the server is one of these. -/
theorem run_of_server {s t : TCPServer} {l : List CallbackCall} (hrun : run TCPServer.step s as = some t) :
    ∃ w, run step ⟨s, l⟩ as = some w ∧ w.server = t := by
  induction as generalizing s l with
  | nil =>
    cases hrun
    exact ⟨_, rfl, rfl⟩
  | cons a as ih =>
    obtain ⟨m, hm, hrun⟩ := run_cons.mp hrun
    obtain ⟨w, hw, hserver⟩ := ih hrun
    exact ⟨w, run_cons.mpr ⟨_, congrArg (Option.map _) hm, hw⟩, hserver⟩

/-! ## The order of the calls -/

/-- A connection's data comes after its notification. -/
def NotifiedFirst (l : List CallbackCall) : Prop :=
  ∀ pre tid fd chunk suf, l = pre ++ .data tid fd chunk :: suf → .newClient tid fd ∈ pre

/-- Each connection has been notified before its data, and once, unless the accept thread is
    still on the way to it. -/
structure Notified (w : Watched) : Prop where
  first : NotifiedFirst w.calls
  once : ∀ tid < w.server.next, w.calls.countP (·.announces tid) = 1 ∨
    w.calls.countP (·.announces tid) = 0 ∧ (∃ fd, Registering w.server fd tid) ∧ w.server.fault ≠ some .terminate

/-- No handler gets to its callback before its connection has been notified, and no thread is
    assigned to an entry of `m_threads` that holds another. -/
structure Timely (w : Watched) (a : Act) : Prop where
  handler : ∀ tid fd chunk, a = .handler tid .go → w.server.handlers tid = some ⟨fd, .callback chunk⟩ →
    ¬ Registering w.server fd tid
  assign : ∀ fd tid old, a = .accept .go → w.server.accept = .assign fd tid → ¬ w.server.Joinable fd old

theorem notifiedFirst_nil : NotifiedFirst [] := by
  intro pre tid fd chunk suf h
  simp at h

theorem notifiedFirst_snoc {l : List CallbackCall} {x : CallbackCall} :
    NotifiedFirst (l ++ [x]) ↔ NotifiedFirst l ∧ ∀ tid fd chunk, x = .data tid fd chunk → .newClient tid fd ∈ l := by
  constructor
  · intro h
    refine ⟨?_, ?_⟩
    · intro pre tid fd chunk suf hl
      exact h pre tid fd chunk (suf ++ [x]) (by rw [hl]; simp)
    · rintro tid fd chunk rfl
      exact h l tid fd chunk [] rfl
  · rintro ⟨h, hx⟩ pre tid fd chunk suf hl
    rcases List.eq_nil_or_concat suf with rfl | ⟨suf', y, rfl⟩
    · obtain ⟨rfl, hlast⟩ := List.append_inj' hl rfl
      exact hx tid fd chunk (List.singleton_inj.mp hlast)
    · rw [List.concat_eq_append, ← List.cons_append, ← List.append_assoc] at hl
      exact h pre tid fd chunk suf' (List.append_inj' hl rfl).1

theorem newClient_mem_iff {tid : Tid} {fd : Socket} {pc : HandlerPc} (h : Told w)
    (hh : w.server.handlers tid = some ⟨fd, pc⟩) : .newClient tid fd ∈ w.calls ↔ ¬ Registering w.server fd tid := by
  have hlt : tid < w.server.next := by
    by_contra hle
    rw [h.unused tid (Nat.le_of_not_lt hle)] at hh
    cases hh
  constructor
  · intro hmem hr
    have hzero := List.countP_eq_zero.mp (h.untold tid (Or.inr ⟨fd, hr⟩)) _ hmem
    exact hzero (announces_eq_true.mpr ⟨fd, rfl⟩)
  · intro hno
    have hnone : ∀ g, ¬ Registering w.server g tid := by
      intro g hr
      obtain ⟨-, pc', hpc'⟩ := h.last g tid hr
      rw [hh] at hpc'
      cases hpc'
      exact hno hr
    have hone := h.told tid hlt hnone
    obtain ⟨x, hx, hann⟩ := List.countP_pos_iff.mp (by rw [hone]; exact Nat.one_pos : 0 < _)
    obtain ⟨g, rfl⟩ := announces_eq_true.mp hann
    obtain ⟨pc', hpc'⟩ := h.socket tid g hx
    rw [hh] at hpc'
    cases hpc'
    exact hx

theorem calling_cases (h : Told w) (a : Act) :
    (∃ tid fd chunk, a = .handler tid .go ∧ w.server.handlers tid = some ⟨fd, .callback chunk⟩ ∧
      w.server.calling a = [.data tid fd chunk]) ∨
    ((∀ tid fd chunk, a = .handler tid .go → w.server.handlers tid ≠ some ⟨fd, .callback chunk⟩) ∧
      (w.server.calling a = [] ∨ ∃ tid fd, w.server.calling a = [.newClient tid fd])) := by
  cases a with
  | handler tid a =>
    by_cases hdata : a = .go ∧ ∃ fd chunk, w.server.handlers tid = some ⟨fd, .callback chunk⟩
    · obtain ⟨rfl, fd, chunk, hh⟩ := hdata
      refine Or.inl ⟨tid, fd, chunk, rfl, hh, ?_⟩
      simp [TCPServer.calling, hh, h.callback]
    · refine Or.inr ⟨?_, Or.inl ?_⟩
      · rintro g fd chunk heq hh
        cases heq
        exact hdata ⟨rfl, fd, chunk, hh⟩
      · unfold TCPServer.calling
        cases a with
        | go =>
          dsimp only
          split
          · rename_i fd chunk hh
            exact absurd ⟨rfl, fd, chunk, hh⟩ hdata
          · rfl
        | data n => rfl
        | ended => rfl
  | accept a =>
    refine Or.inr ⟨nofun, ?_⟩
    unfold TCPServer.calling
    cases a with
    | go =>
      dsimp only
      split
      · rename_i fd hpc
        exact Or.inr ⟨_, fd, by rw [h.callbackNewClient]; rfl⟩
      · exact Or.inl rfl
    | connection fd => exact Or.inl rfl
    | error e => exact Or.inl rfl
  | stop a => exact Or.inr ⟨nofun, Or.inl rfl⟩
  | user u a => exact Or.inr ⟨nofun, Or.inl rfl⟩
  | world a => exact Or.inr ⟨nofun, Or.inl rfl⟩

/-- Data is called for in time if and only if the connection is not being registered. -/
theorem first_step {a : Act} (h : Told w) (hfirst : NotifiedFirst w.calls) (hs : w.step a = some v) :
    NotifiedFirst v.calls ↔ ∀ tid fd chunk, a = .handler tid .go → w.server.handlers tid = some ⟨fd, .callback chunk⟩ →
      ¬ Registering w.server fd tid := by
  rw [(step_eq_some hs).2]
  rcases calling_cases h a with ⟨tid, fd, chunk, rfl, hh, hcalls⟩ | ⟨hnone, hcalls⟩
  · rw [hcalls, notifiedFirst_snoc, and_iff_right hfirst]
    constructor
    · rintro hmem g gd c heq hg
      cases heq
      rw [hh] at hg
      cases hg
      exact (newClient_mem_iff h hh).mp (hmem tid fd chunk rfl)
    · rintro hno g gd c heq
      cases heq
      exact (newClient_mem_iff h hh).mpr (hno tid fd chunk rfl hh)
  · refine iff_of_true ?_ fun tid fd chunk heq hh => absurd hh (hnone tid fd chunk heq)
    rcases hcalls with hcalls | ⟨tid, fd, hcalls⟩
    · rw [hcalls, List.append_nil]
      exact hfirst
    · rw [hcalls, notifiedFirst_snoc]
      exact ⟨hfirst, nofun⟩

/-- The process ends in the middle of a registration if and only if the entry is taken. -/
theorem assign_step {a : Act} (hs : w.step a = some v) :
    (v.server.fault = some .terminate → ∀ fd tid, ¬ Registering v.server fd tid) ↔
      ∀ fd tid old, a = .accept .go → w.server.accept = .assign fd tid → ¬ w.server.Joinable fd old := by
  obtain ⟨hf, hstep⟩ := TCPServer.step_cases (step_eq_some hs).1
  constructor
  · rintro h fd tid old rfl hpc hold
    generalize hv : v.server = t at hstep h
    cases hstep with
    | assign g tid' hpc' hnone =>
      rw [hpc] at hpc'
      cases hpc'
      exact hnone old hold
    | terminate g tid' old' hpc' hold' => exact h rfl fd tid (Or.inl hpc)
    | _ =>
      rename_i hpc'
      cases hpc.symm.trans hpc'
  · intro h hterm
    exfalso
    have hnone : w.server.fault ≠ some .terminate := by
      rw [hf]
      exact nofun
    cases a with
    | accept a =>
      generalize hv : v.server = t at hstep hterm
      cases hstep with
      | terminate fd tid old hpc hold => exact h fd tid old rfl hpc hold
      | _ => exact hnone hterm
    | handler tid a => exact hnone ((TCPServer.HandlerStep.fault hstep).symm.trans hterm)
    | stop a =>
      generalize hv : v.server = t at hstep hterm
      cases hstep <;> exact hnone hterm
    | user u a => exact TCPServer.UserStep.no_terminate hstep hf hterm
    | world a => exact hnone ((TCPServer.WorldStep.fault hstep).symm.trans hterm)

theorem notified_iff (h : Told w) :
    Notified w ↔ NotifiedFirst w.calls ∧ (w.server.fault = some .terminate → ∀ fd tid, ¬ Registering w.server fd tid) := by
  constructor
  · intro hn
    refine ⟨hn.first, ?_⟩
    intro hterm fd tid hr
    have hlt : tid < w.server.next := Nat.lt_of_succ_le (Nat.le_of_eq (h.last fd tid hr).1)
    have hzero := h.untold tid (Or.inr ⟨fd, hr⟩)
    rcases hn.once tid hlt with hone | ⟨-, -, hfault⟩
    · rw [hzero] at hone
      cases hone
    · exact hfault hterm
  · rintro ⟨hfirst, hterm⟩
    refine ⟨hfirst, ?_⟩
    intro tid htid
    by_cases hr : ∃ fd, Registering w.server fd tid
    · refine Or.inr ⟨h.untold tid (Or.inr hr), hr, ?_⟩
      intro hfault
      obtain ⟨fd, hr⟩ := hr
      exact hterm hfault fd tid hr
    · exact Or.inl (h.told tid htid fun fd hfd => hr ⟨fd, hfd⟩)

theorem notified_step {a : Act} (h : Told w) (hn : Notified w) (hs : w.step a = some v) : Notified v ↔ Timely w a := by
  rw [notified_iff (told_step h hs), first_step h hn.first hs, assign_step hs]
  constructor
  · rintro ⟨hhandler, hassign⟩
    exact ⟨hhandler, hassign⟩
  · rintro ⟨hhandler, hassign⟩
    exact ⟨hhandler, hassign⟩

theorem notified_installed {s : TCPServer} (h : Installed s) : Notified ⟨s, []⟩ := by
  refine ⟨notifiedFirst_nil, ?_⟩
  intro tid htid
  have hlt : tid < s.next := htid
  rw [h.started.next] at hlt
  exact absurd hlt (Nat.not_lt_zero tid)

/-- The runs in which each connection is notified before its data, and once, are those whose
    steps are timely. -/
theorem notified_first_iff_timely {s : TCPServer} (h : Installed s) (hrun : run step ⟨s, []⟩ as = some w) :
    Always step Notified ⟨s, []⟩ as ↔ Meets step Timely ⟨s, []⟩ as :=
  always_iff_meets (fun _ _ _ => told_step) (fun _ _ _ => notified_step) (notified_installed h) (told_installed h) hrun

/-- A new server with both callbacks. -/
def announcing : TCPServer := { TCPServer.started with hasCallbackNewClient := true }

theorem installed_announcing : Installed announcing where
  started := { TCPServer.started_started with }
  callback := rfl
  callbackNewClient := rfl

/-- A client connects, is notified, and sends a byte. -/
def notifiedThenData : List Act :=
  TCPServer.connect 4 ++ [.accept .go, .world (.sends 4 [1]), .handler 0 .go, .handler 0 (.data 1), .handler 0 .go]

theorem notified_first_iff_timely_for_one_client :
    ∃ w, run step ⟨announcing, []⟩ notifiedThenData = some w ∧
      (Always step Notified ⟨announcing, []⟩ notifiedThenData ↔ Meets step Timely ⟨announcing, []⟩ notifiedThenData) := by
  have hrun : (run step ⟨announcing, []⟩ notifiedThenData).isSome = true := by decide +kernel
  obtain ⟨w, hw⟩ := Option.isSome_iff_exists.mp hrun
  exact ⟨w, hw, notified_first_iff_timely installed_announcing hw⟩

/-- The byte is there when the handler starts, and the accept thread is slow. -/
def dataThenNotified : List Act :=
  [.accept .go, .accept (.connection 4), .accept .go, .accept .go, .accept .go, .accept .go, .world (.sends 4 [1]),
    .handler 0 .go, .handler 0 (.data 1), .handler 0 .go, .accept .go, .accept .go]

theorem data_comes_before_its_notification :
    ∃ w, run step ⟨announcing, []⟩ dataThenNotified = some w ∧ w.calls = [.data 0 4 [1], .newClient 0 4] ∧
      ¬ NotifiedFirst w.calls ∧ ¬ Notified w := by
  have hrun : (run step ⟨announcing, []⟩ dataThenNotified).any
      (fun w => decide (w.calls = [.data 0 4 [1], .newClient 0 4])) = true := by decide +kernel
  obtain ⟨w, hw, hcalls⟩ := (Option.any_eq_true _ _).mp hrun
  have hcalls := of_decide_eq_true hcalls
  have hnot : ¬ NotifiedFirst w.calls := by
    intro h
    exact absurd (h [] 0 4 [1] [.newClient 0 4] hcalls) List.not_mem_nil
  exact ⟨w, hw, hcalls, hnot, fun h => hnot h.first⟩

/-! ## Clients that wait -/

/-- `accept` has returned the connection and its notification has not been made. -/
def Unnotified (s : TCPServer) (fd : Socket) : Prop :=
  TCPServer.registering s.accept = some fd ∨ s.accept = .notify fd

instance (s : TCPServer) (fd : Socket) : Decidable (Unnotified s fd) := inferInstanceAs (Decidable (_ ∨ _))

/-- No client sends before it has been notified, and none connects whose descriptor has an
    entry of `m_threads` with a joinable thread. -/
def Patient (w : Watched) : Act → Prop
  | .world (.sends fd _) => ¬ Unnotified w.server fd
  | .accept (.connection fd) => Option.join (α := Tid) (w.server.threads.lookup (fd : Socket)) = none
  | _ => True

instance (w : Watched) (a : Act) : Decidable (w.Patient a) := by
  unfold Patient
  split <;> infer_instance

/-- A connection that has not been notified has sent nothing, its handler is in no callback,
    and its entry is free. -/
structure Silent (s : TCPServer) : Prop where
  socket : ∀ fd c, Unnotified s fd → s.sockets fd = some c → c.pending = []
  handler : ∀ fd tid chunk, Registering s fd tid → s.handlers tid ≠ some ⟨fd, .callback chunk⟩
  entry : ∀ fd old, TCPServer.registering s.accept = some fd → ¬ s.Joinable fd old

theorem unnotified_of_registering {s : TCPServer} {fd : Socket} {tid : Tid} (h : Registering s fd tid) :
    Unnotified s fd := by
  rcases h with h | ⟨h, -⟩
  · exact Or.inl (by rw [h]; rfl)
  · exact Or.inr h

theorem silent_of_none {s : TCPServer} (h : ∀ fd, ¬ Unnotified s fd) : Silent s where
  socket fd _ hfd := absurd hfd (h fd)
  handler fd _ _ hr := absurd (unnotified_of_registering hr) (h fd)
  entry fd _ hfd := absurd (Or.inl hfd) (h fd)

/-- The accept thread goes on with the same connection, and has not started its thread yet. -/
theorem silent_of_same {s t : TCPServer} (h : Silent s)
    (hreg : TCPServer.registering t.accept = TCPServer.registering s.accept) (hno : ∀ fd, t.accept ≠ .notify fd)
    (hassign : ∀ fd tid, t.accept ≠ .assign fd tid) (hsockets : t.sockets = s.sockets)
    (hthreads : t.threads = s.threads) : Silent t where
  socket fd c hfd hc := by
    rcases hfd with hfd | hfd
    · exact h.socket fd c (Or.inl (hreg ▸ hfd)) (hsockets ▸ hc)
    · exact absurd hfd (hno fd)
  handler fd tid chunk hr := by
    rcases hr with hr | ⟨hr, -⟩
    · exact absurd hr (hassign fd tid)
    · exact absurd hr (hno fd)
  entry fd old hfd := (TCPServer.joinable_congr hthreads).not.mpr (h.entry fd old (hreg ▸ hfd))

theorem silent_acceptStep {a : AcceptAct} (h : Silent w.server) (htold : Told w) (ha : w.Patient (.accept a))
    (hs : w.step (.accept a) = some v) : Silent v.server := by
  have hstep : TCPServer.AcceptStep w.server a v.server := (TCPServer.step_cases (step_eq_some hs).1).2
  generalize v.server = t at hstep
  cases hstep with
  | check hpc =>
    refine silent_of_none fun fd => ?_
    unfold Unnotified
    dsimp only
    split <;> rintro (h | h) <;> cases h
  | error e hpc =>
    refine silent_of_none fun fd => ?_
    unfold Unnotified
    dsimp only
    split <;> rintro (h | h) <;> cases h
  | notify fd hpc =>
    refine silent_of_none fun fd => ?_
    rintro (h | h) <;> cases h
  | insertClient fd hpc => exact silent_of_same h (by rw [hpc]; rfl) (fun _ => nofun) (fun _ _ => nofun) rfl rfl
  | setFifo fd hpc => exact silent_of_same h (by rw [hpc]; rfl) (fun _ => nofun) (fun _ _ => nofun) rfl rfl
  | makeMutex fd hpc => exact silent_of_same h (by rw [hpc]; rfl) (fun _ => nofun) (fun _ _ => nofun) rfl rfl
  | connection fd hpc hfree =>
    refine ⟨?_, ?_, ?_⟩
    · rintro g c (hg | hg) hc
      · cases hg
        cases (upd_same w.server.sockets (fd : Socket) _).symm.trans hc
        rfl
      · cases hg
    · rintro g tid chunk (hg | ⟨hg, -⟩)
      · cases hg
      · cases hg
    · intro g old hg hjoin
      cases hg
      have hlookup : w.server.threads.lookup (fd : Socket) = some (some old) := hjoin
      have hfree : Option.join (α := Tid) (w.server.threads.lookup (fd : Socket)) = none := ha
      rw [hlookup] at hfree
      cases hfree
  | startThread fd hpc =>
    have hreg : TCPServer.registering w.server.accept = some fd := by rw [hpc]; rfl
    refine ⟨?_, ?_, ?_⟩
    · rintro g c (hg | hg) hc
      · cases hg
        exact h.socket fd c (Or.inl hreg) hc
      · cases hg
    · rintro g tid chunk (hg | ⟨hg, -⟩) hh
      · cases hg
        cases (upd_same w.server.handlers w.server.next _).symm.trans hh
      · cases hg
    · intro g old hg
      cases hg
      exact h.entry fd old hreg
  | assign fd tid hpc hnone =>
    have hreg : TCPServer.registering w.server.accept = some fd := by rw [hpc]; rfl
    refine ⟨?_, ?_, ?_⟩
    · rintro g c (hg | hg) hc
      · cases hg
      · cases hg
        exact h.socket fd c (Or.inl hreg) hc
    · rintro g tid' chunk (hg | ⟨hg, hnext⟩)
      · cases hg
      · cases hg
        have hlast : tid + 1 = w.server.next := (htold.last fd tid (Or.inl hpc)).1
        obtain rfl : tid' = tid := Nat.succ.inj (hnext.trans hlast.symm)
        exact h.handler fd tid' chunk (Or.inl hpc)
    · intro g old hg
      cases hg
  | terminate fd tid old hpc hold => exact absurd hold (h.entry fd old (by rw [hpc]; rfl))

/-- A step that leaves the accept thread where it is, gives a connection that it has to notify
    no bytes, and takes none to the callback. -/
theorem silent_frame {s t : TCPServer} (h : Silent s) (ha : t.accept = s.accept) (hn : t.next = s.next)
    (hsocket : ∀ fd c, Unnotified s fd → t.sockets fd = some c → c.pending = [] ∨ s.sockets fd = some c)
    (hhandler : ∀ fd tid chunk, Unnotified s fd → t.handlers tid = some ⟨fd, .callback chunk⟩ →
      s.handlers tid = some ⟨fd, .callback chunk⟩)
    (hentry : ∀ fd old, t.Joinable fd old → s.Joinable fd old) : Silent t where
  socket fd c hfd hc := by
    have hfd : Unnotified s fd := by
      unfold Unnotified at hfd ⊢
      rwa [ha] at hfd
    rcases hsocket fd c hfd hc with hnil | hsame
    · exact hnil
    · exact h.socket fd c hfd hsame
  handler fd tid chunk hr hh := by
    have hr := (registering_congr ha hn fd tid).mp hr
    exact h.handler fd tid chunk hr (hhandler fd tid chunk (unnotified_of_registering hr) hh)
  entry fd old hfd hjoin := h.entry fd old (ha ▸ hfd) (hentry fd old hjoin)

/-- A handler gets to its callback with bytes that its connection had. -/
theorem data_of_callback {s t : TCPServer} {tid : Tid} {a : HandlerAct} {fd : Socket} {chunk : List Byte}
    (hs : TCPServer.HandlerStep s tid a t) (hh : t.handlers tid = some ⟨fd, .callback chunk⟩) :
    ∃ c, s.sockets fd = some c ∧ c.pending ≠ [] := by
  cases hs with
  | data g n c hpc hc hpos hn hlen =>
    cases (upd_same s.handlers tid _).symm.trans hh
    exact ⟨c, hc, List.ne_nil_of_length_pos (Nat.lt_of_lt_of_le hpos hlen)⟩
  | check g hpc =>
    have hgoes := (upd_same s.handlers tid _).symm.trans hh
    split at hgoes <;> cases hgoes
  | failed g e hpc hc =>
    have hgoes := (upd_same s.handlers tid _).symm.trans hh
    split at hgoes <;> cases hgoes
  | _ => cases (upd_same s.handlers tid _).symm.trans hh

theorem silent_handlerStep {s t : TCPServer} {tid : Tid} {a : HandlerAct} (h : Silent s)
    (hs : TCPServer.HandlerStep s tid a t) : Silent t := by
  have hsame := hs.same
  refine silent_frame h hsame.accept hsame.next ?_ ?_ fun fd old => (TCPServer.joinable_congr hsame.threads).mp
  · intro fd c hfd hc
    cases hs with
    | data g n d hh hd hpos hn hlen =>
      by_cases hg : fd = g
      · subst hg
        cases (upd_same s.sockets fd _).symm.trans hc
        exact Or.inl (by rw [h.socket fd d hfd hd]; exact List.drop_nil)
      · exact Or.inr ((upd_ne _ _ hg).symm.trans hc)
    | close g hh =>
      by_cases hg : fd = g
      · subst hg
        cases (upd_same s.sockets fd _).symm.trans hc
      · exact Or.inr ((upd_ne _ _ hg).symm.trans hc)
    | _ => exact Or.inr hc
  · intro fd g chunk hfd hg
    by_cases hne : g = tid
    · subst hne
      obtain ⟨c, hc, hpending⟩ := data_of_callback hs hg
      exact absurd (h.socket fd c hfd hc) hpending
    · obtain ⟨fd', pc, pc', -, -, hup⟩ := hs.move
      rwa [hup, upd_ne _ _ hne] at hg

/-- What a socket can be found to hold after a step outside the server that sends it nothing. -/
theorem world_pending {s t : TCPServer} {a : WorldAct} {fd : Socket} {c : Conn} (hs : TCPServer.WorldStep s a t)
    (hsends : ∀ bytes, a ≠ .sends fd bytes) (hempty : ∀ d, s.sockets fd = some d → d.pending = [])
    (hc : t.sockets fd = some c) : c.pending = [] := by
  cases hs with
  | sends g pending bytes hg =>
    have hne : fd ≠ g := fun heq => hsends bytes (by rw [heq])
    exact hempty c ((upd_ne _ _ hne).symm.trans hc)
  | closes g pending hg =>
    by_cases hne : fd = g
    · subst hne
      cases (upd_same s.sockets fd _).symm.trans hc
      exact hempty ⟨pending, none⟩ hg
    · exact hempty c ((upd_ne _ _ hne).symm.trans hc)
  | fails g pending e hg =>
    by_cases hne : fd = g
    · subst hne
      cases (upd_same s.sockets fd _).symm.trans hc
      rfl
    · exact hempty c ((upd_ne _ _ hne).symm.trans hc)
  | opens g hg => exact hempty c hc
  | shuts g => exact hempty c hc

theorem silent_step {a : Act} (h : Silent w.server) (htold : Told w) (ha : w.Patient a) (hs : w.step a = some v) :
    Silent v.server := by
  have hstep := (TCPServer.step_cases (step_eq_some hs).1).2
  cases a with
  | accept a => exact silent_acceptStep h htold ha hs
  | handler tid a => exact silent_handlerStep h hstep
  | stop a =>
    refine silent_frame h (TCPServer.StopStep.accept hstep) (TCPServer.StopStep.next hstep) ?_ ?_ ?_
    · intro fd c _ hc
      exact Or.inr (TCPServer.StopStep.sockets hstep ▸ hc)
    · intro fd tid chunk _ hh
      exact TCPServer.StopStep.handlers hstep ▸ hh
    · intro fd old hjoin
      generalize v.server = t at hstep hjoin
      cases hstep with
      | join g tid todo g' hpc hdone =>
        rcases (TCPServer.joinable_insert rfl).mp hjoin with ⟨-, hnone⟩ | ⟨-, hjoin⟩
        · cases hnone
        · exact hjoin
      | _ => exact hjoin
  | user u a =>
    have hsame := TCPServer.UserStep.same hstep
    refine silent_frame h hsame.accept hsame.next ?_ ?_ fun fd old => (TCPServer.joinable_congr hsame.threads).mp
    · intro fd c _ hc
      exact Or.inr (TCPServer.UserStep.sockets hstep ▸ hc)
    · intro fd tid chunk _ hh
      exact TCPServer.UserStep.handlers hstep ▸ hh
  | world a =>
    have hsame := TCPServer.WorldStep.same hstep
    refine silent_frame h hsame.accept hsame.next ?_ ?_ fun fd old => (TCPServer.joinable_congr hsame.threads).mp
    · intro fd c hfd hc
      have hsends : ∀ bytes, a ≠ .sends fd bytes := by
        rintro bytes rfl
        exact ha hfd
      exact Or.inl (world_pending hstep hsends (fun d => h.socket fd d hfd) hc)
    · intro fd tid chunk _ hh
      exact TCPServer.WorldStep.handlers hstep ▸ hh

theorem timely_of_silent (h : Silent w.server) (a : Act) : Timely w a where
  handler tid fd chunk _ hh hr := h.handler fd tid chunk hr hh
  assign fd tid old _ hpc := h.entry fd old (by rw [hpc]; rfl)

/-- If no client sends before its notification, and none gets a descriptor whose thread has
    not been joined, each is notified before its data, and once. -/
theorem notified_of_patient {s : TCPServer} (h : Installed s) (hpatient : Meets step Patient ⟨s, []⟩ as) :
    Always step Notified ⟨s, []⟩ as := by
  have hsilent : Silent s := by
    refine silent_of_none fun fd => ?_
    unfold Unnotified
    rw [h.started.accept]
    rintro (h | h) <;> cases h
  refine always_of_meets (I := fun w => (Told w ∧ Silent w.server) ∧ Notified w) ?_ (fun _ hw => hw.2)
    ⟨⟨told_installed h, hsilent⟩, notified_installed h⟩ hpatient
  rintro w a v ⟨⟨htold, hsilent⟩, hnotified⟩ ha hs
  exact ⟨⟨told_step htold hs, silent_step hsilent htold ha hs⟩,
    (notified_step htold hnotified hs).mpr (timely_of_silent hsilent a)⟩

example : Meets step Patient ⟨announcing, []⟩ notifiedThenData := by decide +kernel

example : ¬ Meets step Patient ⟨announcing, []⟩ dataThenNotified := by decide +kernel

end Watched

end ComClient.Server
