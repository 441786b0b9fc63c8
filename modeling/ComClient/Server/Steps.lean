/-
  ComClient.Server.Steps — what a step of a `TCPServer` can do, said once for each
  actor (`AcceptStep`, `HandlerStep`, `StopStep`, `UserStep`, `WorldStep`; one
  constructor a transition, guards included), and the states in which a run starts.

  - `step_cases`: a step is one of these.
  - `HandlerStep.same` / `UserStep.same` / `WorldStep.same`: only the accept thread and
    `stop()` touch the flag, `m_threads` and each other.
  - `HandlerStep.move`: a handler stays with its socket, and goes where `handle_client` does.
-/

import ComClient.Server.Tcp

namespace ComClient.Server.TCPServer

open ComClient.Transport (Byte)
open ComClient.Lts

variable {s t : TCPServer}

/-! ## One constructor a transition -/

inductive AcceptStep (s : TCPServer) : AcceptAct → TCPServer → Prop
  | check : s.accept = .check → AcceptStep s .go { s with accept := if s.running then .accept else .done }
  | insertClient (fd : Socket) : s.accept = .insertClient fd →
      AcceptStep s .go { s with reg := s.reg.insertClient fd, accept := .setFifo fd }
  | setFifo (fd : Socket) : s.accept = .setFifo fd →
      AcceptStep s .go { s with reg := s.reg.setFifo fd [], accept := .makeMutex fd }
  | makeMutex (fd : Socket) : s.accept = .makeMutex fd →
      AcceptStep s .go { s with reg := s.reg.lock fd, accept := .startThread fd }
  | startThread (fd : Socket) : s.accept = .startThread fd →
      AcceptStep s .go
        { s.setHandler s.next ⟨fd, .check⟩ with next := s.next + 1, accept := .assign fd s.next }
  | assign (fd : Socket) (tid : Tid) : s.accept = .assign fd tid → (∀ old, ¬ s.Joinable fd old) →
      AcceptStep s .go { s with threads := s.threads.insert fd (some tid), accept := .notify fd }
  | terminate (fd : Socket) (tid old : Tid) : s.accept = .assign fd tid → s.Joinable fd old →
      AcceptStep s .go { s with fault := some .terminate }
  | notify (fd : Socket) : s.accept = .notify fd →
      AcceptStep s .go { s.logIf s.hasCallbackNewClient (.newClient fd) with accept := .check }
  | connection (fd : Nat) : s.accept = .accept → s.LowestFree fd →
      AcceptStep s (.connection fd) { s.setSocket fd (some ⟨[], none⟩) with accept := .insertClient fd }
  | error (e : Errno) : s.accept = .accept →
      AcceptStep s (.error e) { s with accept := if wouldBlock e then .check else .done }

inductive HandlerStep (s : TCPServer) (tid : Tid) : HandlerAct → TCPServer → Prop
  | check (fd : Socket) : s.handlers tid = some ⟨fd, .check⟩ →
      HandlerStep s tid .go (s.setHandler tid ⟨fd, if s.running then .recv else .close⟩)
  | callback (fd : Socket) (chunk : List Byte) : s.handlers tid = some ⟨fd, .callback chunk⟩ →
      HandlerStep s tid .go ((s.logIf s.hasCallback (.called fd chunk)).setHandler tid ⟨fd, .check⟩)
  | close (fd : Socket) : s.handlers tid = some ⟨fd, .close⟩ →
      HandlerStep s tid .go ((s.setSocket fd none).setHandler tid ⟨fd, .eraseClient⟩)
  | eraseClient (fd : Socket) : s.handlers tid = some ⟨fd, .eraseClient⟩ →
      HandlerStep s tid .go ({ s with reg := s.reg.eraseClient fd }.setHandler tid ⟨fd, .eraseFifo⟩)
  | eraseFifo (fd : Socket) : s.handlers tid = some ⟨fd, .eraseFifo⟩ →
      HandlerStep s tid .go ({ s with reg := s.reg.eraseFifo fd }.setHandler tid ⟨fd, .eraseMutex⟩)
  | eraseMutex (fd : Socket) : s.handlers tid = some ⟨fd, .eraseMutex⟩ →
      HandlerStep s tid .go ({ s with reg := s.reg.eraseMutex fd }.setHandler tid ⟨fd, .done⟩)
  | data (fd : Socket) (n : Nat) (c : Conn) : s.handlers tid = some ⟨fd, .recv⟩ → s.sockets fd = some c → 0 < n →
      n ≤ 1024 → n ≤ c.pending.length →
      HandlerStep s tid (.data n)
        (({ s.setSocket fd (some { c with pending := c.pending.drop n }) with
            reg := s.reg.append fd (c.pending.take n) }.log
          (.received fd (c.pending.take n))).setHandler tid ⟨fd, .callback (c.pending.take n)⟩)
  | closed (fd : Socket) : s.handlers tid = some ⟨fd, .recv⟩ → s.sockets fd = some ⟨[], some .closed⟩ →
      HandlerStep s tid .ended (s.setHandler tid ⟨fd, .close⟩)
  | failed (fd : Socket) (e : Errno) : s.handlers tid = some ⟨fd, .recv⟩ →
      s.sockets fd = some ⟨[], some (.error e)⟩ →
      HandlerStep s tid .ended (s.setHandler tid ⟨fd, if wouldBlock e then .check else .close⟩)

inductive StopStep (s : TCPServer) : StopAct → TCPServer → Prop
  | call : s.stop = .idle → StopStep s .call { s with stop := .check }
  | check : s.stop = .check → StopStep s .go { s with stop := if s.running then .clear else .returned }
  | clear : s.stop = .clear → StopStep s .go { s with running := false, stop := .begin }
  | begin : s.stop = .begin → StopStep s .go { s with stop := .loop s.threads.keys }
  | joined : s.stop = .loop [] → StopStep s .go { s with stop := .joinAccept }
  | join (fd : Socket) (tid : Tid) (todo : List Socket) (g : Socket) : s.stop = .join fd tid todo →
      s.handlers tid = some ⟨g, .done⟩ →
      StopStep s .go { s with threads := s.threads.insert fd none, stop := .loop todo }
  | joinAccept : s.stop = .joinAccept → s.acceptJoinable = true → s.accept = .done →
      StopStep s .go { s with acceptJoinable := false, stop := .base }
  | noAccept : s.stop = .joinAccept → s.acceptJoinable = false → StopStep s .go { s with stop := .base }
  | base : s.stop = .base → StopStep s .go { s with running := false, stop := .returned }
  | visit (fd : Socket) (tid : Tid) (todo : List Socket) : s.stop = .loop todo → s.Joinable fd tid →
      StopStep s (.visit fd) { s with stop := .join fd tid (todo.erase fd) }
  | skip (fd : Socket) (todo : List Socket) : s.stop = .loop todo → s.threads.lookup fd = some none →
      StopStep s (.visit fd) { s with stop := .loop (todo.erase fd) }

inductive UserStep (s : TCPServer) (u : Tid) : UserAct → TCPServer → Prop
  | read (c : ReadCall) : s.users u = .idle → c.i ∈ s.reg.clients → UserStep s u (.read c) (s.setUser u (.sample c))
  | readRefused (c : ReadCall) : s.users u = .idle → UserStep s u (.read c) (s.log (.refused c.i))
  | available (i : Socket) : s.users u = .idle → i ∈ s.reg.clients →
      UserStep s u (.available i) (s.setUser u (.available i))
  | availableRefused (i : Socket) : s.users u = .idle → UserStep s u (.available i) (s.log (.refused i))
  | clear (i : Socket) : s.users u = .idle → UserStep s u (.clear i) { s with reg := s.reg.clearFifo i }
  | sample (c : ReadCall) : s.users u = .sample c →
      UserStep s u .go ({ s with reg := (s.reg.sample c.i).1 }.setUser u
        (if c.blocking ∧ (s.reg.sample c.i).2 < c.size then .wait c else .clamp c))
  | wait (c : ReadCall) : s.users u = .wait c →
      UserStep s u .go ({ s with reg := (s.reg.sample c.i).1 }.setUser u
        (if (s.reg.sample c.i).2 < c.size then .wait c else .clamp c))
  | clamp (c : ReadCall) : s.users u = .clamp c →
      UserStep s u .go ({ s with reg := (s.reg.clamp c.i c.size).1 }.setUser u
        (.copy c (s.reg.clamp c.i c.size).2))
  | copy (c : ReadCall) (n : Nat) (reg : Registry) (bytes : List Byte) : s.users u = .copy c n →
      s.reg.copy c.i n c.erase = some (reg, bytes) →
      UserStep s u .go (({ s with reg := reg }.log (.read c bytes)).setUser u .idle)
  | outOfBounds (c : ReadCall) (n : Nat) : s.users u = .copy c n → s.reg.copy c.i n c.erase = none →
      UserStep s u .go { s with fault := some .outOfBounds }
  | sampled (i : Socket) : s.users u = .available i →
      UserStep s u .go (({ s with reg := (s.reg.sample i).1 }.log (.available i (s.reg.sample i).2)).setUser u .idle)

inductive WorldStep (s : TCPServer) : WorldAct → TCPServer → Prop
  | sends (fd : Socket) (pending bytes : List Byte) : s.sockets fd = some ⟨pending, none⟩ →
      WorldStep s (.sends fd bytes) (s.setSocket fd (some ⟨pending ++ bytes, none⟩))
  | closes (fd : Socket) (pending : List Byte) : s.sockets fd = some ⟨pending, none⟩ →
      WorldStep s (.closes fd) (s.setSocket fd (some ⟨pending, some .closed⟩))
  | fails (fd : Socket) (pending : List Byte) (e : Errno) : s.sockets fd = some ⟨pending, none⟩ →
      WorldStep s (.fails fd e) (s.setSocket fd (some ⟨[], some (.error e)⟩))
  | opens (fd : Nat) : s.LowestFree fd → WorldStep s (.opens fd) { s with others := (fd : Socket) :: s.others }
  | shuts (fd : Socket) : WorldStep s (.shuts fd) { s with others := s.others.erase fd }

def Step (s : TCPServer) (t : TCPServer) : Act → Prop
  | .accept a => AcceptStep s a t
  | .handler tid a => HandlerStep s tid a t
  | .stop a => StopStep s a t
  | .user u a => UserStep s u a t
  | .world a => WorldStep s a t

/-! ## A step is one of these -/

theorem acceptStep_cases {a : AcceptAct} (h : s.acceptStep a = some t) : AcceptStep s a t := by
  cases a with
  | go =>
    simp only [acceptStep] at h
    split at h
    · rename_i hpc; cases h; exact .check hpc
    · rename_i fd hpc; cases h; exact .insertClient fd hpc
    · rename_i fd hpc; cases h; exact .setFifo fd hpc
    · rename_i fd hpc; cases h; exact .makeMutex fd hpc
    · rename_i fd hpc; cases h; exact .startThread fd hpc
    · rename_i fd tid hpc
      split at h
      · rename_i old hold; cases h; exact .terminate fd tid old hpc hold
      · rename_i hold; cases h; exact .assign fd tid hpc hold
    · rename_i fd hpc; cases h; exact .notify fd hpc
    all_goals cases h
  | connection fd =>
    obtain ⟨hg, h⟩ := Option.ite_none_right_eq_some.mp h
    cases h
    exact .connection fd hg.1 hg.2
  | error e =>
    obtain ⟨hg, h⟩ := Option.ite_none_right_eq_some.mp h
    cases h
    exact .error e hg

theorem handlerStep_cases {tid : Tid} {a : HandlerAct} (h : s.handlerStep tid a = some t) : HandlerStep s tid a t := by
  unfold handlerStep at h
  split at h
  · cases h
  rename_i fd pc hh
  cases a with
  | go =>
    cases pc <;> obtain ⟨⟩ := h
    case check => exact .check fd hh
    case callback chunk => exact .callback fd chunk hh
    case close => exact .close fd hh
    case eraseClient => exact .eraseClient fd hh
    case eraseFifo => exact .eraseFifo fd hh
    case eraseMutex => exact .eraseMutex fd hh
  | data n =>
    dsimp only at h
    split at h
    · rename_i c hc
      obtain ⟨hn, h⟩ := Option.ite_none_right_eq_some.mp h
      cases h
      exact .data fd n c hh hc hn.1 hn.2.1 hn.2.2
    · cases h
  | ended =>
    dsimp only at h
    split at h
    · rename_i hc
      cases h
      exact .closed fd hh hc
    · rename_i e hc
      cases h
      exact .failed fd e hh hc
    · cases h

theorem stopStep_cases {a : StopAct} (h : s.stopStep a = some t) : StopStep s a t := by
  cases a with
  | call =>
    obtain ⟨hg, h⟩ := Option.ite_none_right_eq_some.mp h
    cases h
    exact .call hg
  | go =>
    simp only [stopStep] at h
    split at h
    · rename_i hpc; cases h; exact .check hpc
    · rename_i hpc; cases h; exact .clear hpc
    · rename_i hpc; cases h; exact .begin hpc
    · rename_i hpc; cases h; exact .joined hpc
    · rename_i fd tid todo hpc
      obtain ⟨hg, h⟩ := Option.ite_none_right_eq_some.mp h
      cases h
      obtain ⟨⟨g, pc⟩, hh, hdone⟩ := (Option.any_eq_true _ _).mp hg
      cases of_decide_eq_true hdone
      exact .join fd tid todo g hpc hh
    · rename_i hpc
      split at h
      · rename_i hj
        obtain ⟨hg, h⟩ := Option.ite_none_right_eq_some.mp h
        cases h
        exact .joinAccept hpc hj hg
      · rename_i hj
        cases h
        exact .noAccept hpc (Bool.eq_false_iff.mpr hj)
    · rename_i hpc; cases h; exact .base hpc
    all_goals cases h
  | visit fd =>
    simp only [stopStep] at h
    split at h
    · rename_i todo tid hpc hl; cases h; exact .visit fd tid todo hpc hl
    · rename_i todo hpc hl; cases h; exact .skip fd todo hpc hl
    · cases h

theorem userStep_cases {u : Tid} {a : UserAct} (h : s.userStep u a = some t) : UserStep s u a t := by
  cases a with
  | read c =>
    obtain ⟨hg, h⟩ := Option.ite_none_right_eq_some.mp h
    split at h
    · rename_i hc; cases h; exact .read c hg hc
    · cases h; exact .readRefused c hg
  | available i =>
    obtain ⟨hg, h⟩ := Option.ite_none_right_eq_some.mp h
    split at h
    · rename_i hc; cases h; exact .available i hg hc
    · cases h; exact .availableRefused i hg
  | clear i =>
    obtain ⟨hg, h⟩ := Option.ite_none_right_eq_some.mp h
    cases h
    exact .clear i hg
  | go =>
    simp only [userStep] at h
    split at h
    · rename_i c hpc; cases h; exact .sample c hpc
    · rename_i c hpc; cases h; exact .wait c hpc
    · rename_i c hpc; cases h; exact .clamp c hpc
    · rename_i c n hpc
      split at h
      · rename_i reg bytes hc; cases h; exact .copy c n reg bytes hpc hc
      · rename_i hc; cases h; exact .outOfBounds c n hpc hc
    · rename_i i hpc; cases h; exact .sampled i hpc
    · cases h

theorem worldStep_cases {a : WorldAct} (h : s.worldStep a = some t) : WorldStep s a t := by
  cases a with
  | sends fd bytes =>
    simp only [worldStep] at h
    split at h
    · rename_i pending hc; cases h; exact .sends fd pending bytes hc
    · cases h
  | closes fd =>
    simp only [worldStep] at h
    split at h
    · rename_i pending hc; cases h; exact .closes fd pending hc
    · cases h
  | fails fd e =>
    simp only [worldStep] at h
    split at h
    · rename_i pending hc; cases h; exact .fails fd pending e hc
    · cases h
  | opens fd =>
    obtain ⟨hg, h⟩ := Option.ite_none_right_eq_some.mp h
    cases h
    exact .opens fd hg
  | shuts fd =>
    obtain ⟨-, h⟩ := Option.ite_none_right_eq_some.mp h
    cases h
    exact .shuts fd

theorem step_cases {a : Act} (h : s.step a = some t) : s.fault = none ∧ Step s t a := by
  unfold step at h
  split at h
  · cases h
  rename_i hf
  refine ⟨Option.not_isSome_iff_eq_none.mp hf, ?_⟩
  cases a with
  | accept a => exact acceptStep_cases h
  | handler tid a => exact handlerStep_cases h
  | stop a => exact stopStep_cases h
  | user u a => exact userStep_cases h
  | world a => exact worldStep_cases h

/-- A step of a caller, or not. -/
theorem user_or_not (a : Act) : (∃ u b, a = .user u b) ∨ ∀ u b, a ≠ .user u b := by
  cases a with
  | user u b => exact Or.inl ⟨u, b, rfl⟩
  | _ => exact Or.inr nofun

/-! ## The entries of `m_threads` -/

theorem joinable_congr (h : t.threads = s.threads) {fd : Socket} {tid : Tid} :
    t.Joinable fd tid ↔ s.Joinable fd tid := by
  unfold Joinable
  rw [h]

theorem joinable_insert {fd g : Socket} {tid : Tid} {e : Option Tid} (ht : t.threads = s.threads.insert fd e) :
    t.Joinable g tid ↔ (g = fd ∧ e = some tid) ∨ (g ≠ fd ∧ s.Joinable g tid) := by
  unfold Joinable
  rw [ht]
  by_cases hg : g = fd
  · subst hg
    simp
  · simp [AList.lookup_insert_ne hg, hg]

theorem joinable_unique {fd : Socket} {tid tid' : Tid} (h : s.Joinable fd tid) (h' : s.Joinable fd tid') :
    tid = tid' := by
  unfold Joinable at h h'
  rw [h] at h'
  exact Option.some.inj (Option.some.inj h')

/-! ## What an actor leaves alone -/

/-- What only the accept thread and `stop()` change. -/
structure Same (s t : TCPServer) : Prop where
  running : t.running = s.running
  threads : t.threads = s.threads
  accept : t.accept = s.accept
  acceptJoinable : t.acceptJoinable = s.acceptJoinable
  stop : t.stop = s.stop
  next : t.next = s.next

theorem HandlerStep.same {tid : Tid} {a : HandlerAct} (h : HandlerStep s tid a t) : Same s t := by
  cases h <;> exact ⟨rfl, rfl, rfl, rfl, rfl, rfl⟩

theorem UserStep.same {u : Tid} {a : UserAct} (h : UserStep s u a t) : Same s t := by
  cases h <;> exact ⟨rfl, rfl, rfl, rfl, rfl, rfl⟩

theorem WorldStep.same {a : WorldAct} (h : WorldStep s a t) : Same s t := by
  cases h <;> exact ⟨rfl, rfl, rfl, rfl, rfl, rfl⟩

/-- The accept thread does not touch what `stop()` does, and makes no step once it is done. -/
theorem AcceptStep.stop {a : AcceptAct} (h : AcceptStep s a t) :
    t.running = s.running ∧ t.stop = s.stop ∧ t.acceptJoinable = s.acceptJoinable ∧ s.accept ≠ .done := by
  cases h <;> refine ⟨rfl, rfl, rfl, ?_⟩ <;> simp only [ne_eq, reduceCtorEq, not_false_eq_true, *]

/-- Where the control flow of `handle_client` goes next. -/
inductive HandlerGoes : HandlerPc → HandlerPc → Prop
  | run : HandlerGoes .check .recv
  | leave : HandlerGoes .check .close
  | data (chunk : List Byte) : HandlerGoes .recv (.callback chunk)
  | again : HandlerGoes .recv .check
  | ended : HandlerGoes .recv .close
  | called (chunk : List Byte) : HandlerGoes (.callback chunk) .check
  | closed : HandlerGoes .close .eraseClient
  | erasedClient : HandlerGoes .eraseClient .eraseFifo
  | erasedFifo : HandlerGoes .eraseFifo .eraseMutex
  | erasedMutex : HandlerGoes .eraseMutex .done

theorem HandlerStep.move {tid : Tid} {a : HandlerAct} (h : HandlerStep s tid a t) :
    ∃ fd pc pc', s.handlers tid = some ⟨fd, pc⟩ ∧ HandlerGoes pc pc' ∧
      t.handlers = upd s.handlers tid (some ⟨fd, pc'⟩) := by
  cases h with
  | check fd hh =>
    refine ⟨fd, _, _, hh, ?_, rfl⟩
    split
    · exact .run
    · exact .leave
  | failed fd e hh hc =>
    refine ⟨fd, _, _, hh, ?_, rfl⟩
    split
    · exact .again
    · exact .ended
  | callback fd chunk hh => exact ⟨fd, _, _, hh, .called chunk, rfl⟩
  | close fd hh => exact ⟨fd, _, _, hh, .closed, rfl⟩
  | eraseClient fd hh => exact ⟨fd, _, _, hh, .erasedClient, rfl⟩
  | eraseFifo fd hh => exact ⟨fd, _, _, hh, .erasedFifo, rfl⟩
  | eraseMutex fd hh => exact ⟨fd, _, _, hh, .erasedMutex, rfl⟩
  | data fd n c hh hc h0 hn hlen => exact ⟨fd, _, _, hh, .data _, rfl⟩
  | closed fd hh hc => exact ⟨fd, _, _, hh, .ended, rfl⟩

theorem HandlerStep.fault {tid : Tid} {a : HandlerAct} (h : HandlerStep s tid a t) : t.fault = s.fault := by
  cases h <;> rfl

theorem WorldStep.fault {a : WorldAct} (h : WorldStep s a t) : t.fault = s.fault := by cases h <;> rfl

theorem UserStep.no_terminate {u : Tid} {a : UserAct} (h : UserStep s u a t) (hf : s.fault = none) :
    t.fault ≠ some .terminate := by
  cases h
  case outOfBounds => exact nofun
  all_goals
    intro ht
    cases hf.symm.trans ht

theorem StopStep.handlers {a : StopAct} (h : StopStep s a t) : t.handlers = s.handlers := by cases h <;> rfl

theorem StopStep.sockets {a : StopAct} (h : StopStep s a t) : t.sockets = s.sockets := by cases h <;> rfl

theorem StopStep.accept {a : StopAct} (h : StopStep s a t) : t.accept = s.accept := by cases h <;> rfl

theorem StopStep.next {a : StopAct} (h : StopStep s a t) : t.next = s.next := by cases h <;> rfl

theorem UserStep.others {u v : Tid} {a : UserAct} (h : UserStep s u a t) (hv : v ≠ u) : t.users v = s.users v := by
  cases h <;> first | rfl | exact upd_ne _ _ hv

theorem UserStep.handlers {u : Tid} {a : UserAct} (h : UserStep s u a t) : t.handlers = s.handlers := by
  cases h <;> rfl

theorem UserStep.sockets {u : Tid} {a : UserAct} (h : UserStep s u a t) : t.sockets = s.sockets := by
  cases h <;> rfl

theorem WorldStep.handlers {a : WorldAct} (h : WorldStep s a t) : t.handlers = s.handlers := by cases h <;> rfl

/-- No step installs or removes a callback. -/
theorem step_hasCallback {a : Act} (h : s.step a = some t) : t.hasCallback = s.hasCallback := by
  obtain ⟨-, h⟩ := step_cases h
  cases a with
  | accept a => cases h <;> rfl
  | handler tid a => cases h <;> rfl
  | stop a => cases h <;> rfl
  | user u a => cases h <;> rfl
  | world a => cases h <;> rfl

/-! ## Where a run starts -/

/-- `start()` has returned on a server that was just built, or that an earlier `stop()`
    left without handlers. -/
structure Started (s : TCPServer) : Prop where
  running : s.running = true
  accept : s.accept = .check
  acceptJoinable : s.acceptJoinable = true
  stop : s.stop = .idle
  threads : ∀ fd tid, ¬ s.Joinable fd tid
  handlers : ∀ tid, s.handlers tid = none
  next : s.next = 0
  users : ∀ u, s.users u = .idle
  sockets : ∀ fd, s.sockets fd = none
  clients : s.reg.clients = []
  fifos : ∀ i, s.reg.fifo i = []
  fault : s.fault = none
  history : s.history = []

/-- A new server: standard input, output and error and the listening socket are open. -/
def started : TCPServer where
  running := true
  reg := .empty
  threads := ∅
  accept := .check
  acceptJoinable := true
  stop := .idle
  handlers _ := none
  next := 0
  users _ := .idle
  sockets _ := none
  others := [0, 1, 2, 3]
  hasCallback := true
  hasCallbackNewClient := false
  fault := none
  history := []

theorem started_started : Started started where
  running := rfl
  accept := rfl
  acceptJoinable := rfl
  stop := rfl
  threads _ _ := by simp [Joinable, started]
  handlers _ := rfl
  next := rfl
  users _ := rfl
  sockets _ := rfl
  clients := rfl
  fifos _ := by simp [started, Registry.empty, Registry.fifo]
  fault := rfl
  history := rfl

/-- The accept thread takes a connection and registers it. -/
def connect (fd : Nat) : List Act :=
  [.accept .go, .accept (.connection fd), .accept .go, .accept .go, .accept .go, .accept .go, .accept .go]

/-- The client closes and its handler ends. -/
def disconnect (fd : Socket) (tid : Tid) : List Act :=
  [.handler tid .go, .world (.closes fd), .handler tid .ended, .handler tid .go, .handler tid .go, .handler tid .go,
    .handler tid .go]

/-! ## Before `stop()` is called -/

def isStop : Act → Bool
  | .stop _ => true
  | _ => false

/-- The run has no step of `stop()`. -/
def NoStop (as : List Act) : Prop := ∀ a ∈ as, isStop a = false

instance (as : List Act) : Decidable (NoStop as) := inferInstanceAs (Decidable (∀ _ ∈ as, _))

end ComClient.Server.TCPServer
