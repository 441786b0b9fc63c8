/-
  ComClient.Server.Tcp — a running `TCPServer` with all its threads
  (`src/include/tcp_client.hpp`, the Linux branches).

  Actors. The accept thread (`accept_connections`), one handler thread a connection
  (`handle_client`), one caller of `stop()`, any number of threads that call
  `read_byte`, `is_available` and `clear_fifo`, and the world: the clients, and the rest
  of the process, which opens and closes descriptors too. Each map operation, flag
  read, thread start, join, section under a mutex, and the unlocked clamping in
  `read_byte` is one step (`step`). What a system call returns is part of the action;
  `accept` returns the lowest free descriptor. `recv` touches nothing that another
  thread sees, so it is one step with the section that appends what it returned.

  Assigning a thread to an entry of `m_threads` that holds a joinable one calls
  `std::terminate`, and `read_byte` may be about to copy more than the deque holds:
  both are a `fault`, after which there are no steps. `history` is what the clients and
  the callers have seen, for the statements only.
-/

import ComClient.Lts.Run
import ComClient.Server.Registry

namespace ComClient.Server

open ComClient.Transport (Byte)

abbrev Errno := Nat

def EAGAIN : Errno := 11

def EWOULDBLOCK : Errno := 11

/-- `errno == EWOULDBLOCK || errno == EAGAIN` -/
def wouldBlock (e : Errno) : Bool := e == EWOULDBLOCK || e == EAGAIN

/-- Names of threads. -/
abbrev Tid := Nat

/-- `f` with `v` at `i`. -/
def upd {ι α : Type} [DecidableEq ι] (f : ι → α) (i : ι) (v : α) : ι → α := fun j => if j = i then v else f j

@[simp] theorem upd_same {ι α : Type} [DecidableEq ι] (f : ι → α) (i : ι) (v : α) : upd f i v i = v := if_pos rfl

theorem upd_ne {ι α : Type} [DecidableEq ι] (f : ι → α) {i j : ι} (v : α) (h : j ≠ i) : upd f i v j = f j := if_neg h

theorem upd_eq_some {ι α : Type} [DecidableEq ι] {f : ι → Option α} {i j : ι} {v w : α} :
    upd f i (some v) j = some w ↔ (j = i ∧ v = w) ∨ (j ≠ i ∧ f j = some w) := by
  by_cases h : j = i
  · subst h
    simp
  · simp [upd_ne _ _ h, h]

theorem upd_some_ne_none {ι α : Type} [DecidableEq ι] {f : ι → Option α} {j : ι} (i : ι) (v : α) (h : f j ≠ none) :
    upd f i (some v) j ≠ none := by
  by_cases hj : j = i
  · subst hj
    simp
  · rw [upd_ne _ _ hj]
    exact h

/-! ## Where each thread stands -/

/-- `accept_connections`; from `insertClient` to `assign` a connection is being registered. -/
inductive AcceptPc where
  | check
  | accept
  | insertClient (fd : Socket)
  | setFifo (fd : Socket)
  | makeMutex (fd : Socket)
  | startThread (fd : Socket)
  | assign (fd : Socket) (tid : Tid)
  | notify (fd : Socket)
  | done
  deriving DecidableEq, Repr

/-- `handle_client` -/
inductive HandlerPc where
  | check
  | recv
  | callback (chunk : List Byte)
  | close
  | eraseClient
  | eraseFifo
  | eraseMutex
  | done
  deriving DecidableEq, Repr

structure Handler where
  fd : Socket
  pc : HandlerPc
  deriving DecidableEq, Repr

/-- `TCPServer::stop`; `todo` are the entries its loop over `m_threads` has yet to meet. -/
inductive StopPc where
  | idle
  | check
  | clear
  | begin
  | loop (todo : List Socket)
  | join (fd : Socket) (tid : Tid) (todo : List Socket)
  | joinAccept
  | base
  | returned
  deriving DecidableEq, Repr

/-- The arguments of a `read_byte`. -/
structure ReadCall where
  i : Socket
  size : Nat
  blocking : Bool
  erase : Bool
  deriving DecidableEq, Repr

/-- A thread outside the server: in `read_byte`, in `is_available`, or in neither. -/
inductive UserPc where
  | idle
  | sample (c : ReadCall)
  | wait (c : ReadCall)
  | clamp (c : ReadCall)
  | copy (c : ReadCall) (n : Nat)
  | available (i : Socket)
  deriving DecidableEq, Repr

/-! ## The state -/

inductive Ending where
  | closed
  | error (e : Errno)
  deriving DecidableEq, Repr

/-- The kernel's end of a connection: what `recv` can still return. -/
structure Conn where
  pending : List Byte
  ended : Option Ending
  deriving DecidableEq, Repr

inductive Fault where
  | terminate
  | outOfBounds
  deriving DecidableEq, Repr

inductive Event where
  | received (i : Socket) (bytes : List Byte)
  | called (i : Socket) (bytes : List Byte)
  | newClient (i : Socket)
  | read (c : ReadCall) (bytes : List Byte)
  | available (i : Socket) (n : Nat)
  /-- A call that returned -1 for a socket it does not know. -/
  | refused (i : Socket)
  deriving DecidableEq, Repr

structure TCPServer where
  running : Bool
  reg : Registry
  /-- `m_threads`: the joinable thread an entry holds, if it holds one. -/
  threads : AList fun _ : Socket => Option Tid
  accept : AcceptPc
  acceptJoinable : Bool
  stop : StopPc
  handlers : Tid → Option Handler
  /-- The handlers started so far have the names below. -/
  next : Tid
  users : Tid → UserPc
  sockets : Socket → Option Conn
  /-- The descriptors that are open in the rest of the process. -/
  others : List Socket
  hasCallback : Bool
  hasCallbackNewClient : Bool
  fault : Option Fault
  history : List Event

namespace TCPServer

def Free (s : TCPServer) (fd : Socket) : Prop := fd ∉ s.others ∧ s.sockets fd = none

instance (s : TCPServer) (fd : Socket) : Decidable (s.Free fd) := inferInstanceAs (Decidable (_ ∧ _))

def LowestFree (s : TCPServer) (fd : Nat) : Prop := s.Free fd ∧ ∀ g < fd, ¬ s.Free (g : Nat)

instance (s : TCPServer) (fd : Nat) : Decidable (s.LowestFree fd) := inferInstanceAs (Decidable (_ ∧ _))

/-- `thread.joinable()` for the entry of `fd`. -/
def Joinable (s : TCPServer) (fd : Socket) (tid : Tid) : Prop := s.threads.lookup fd = some (some tid)

def log (s : TCPServer) (e : Event) : TCPServer := { s with history := s.history ++ [e] }

/-- The callback is called if there is one. -/
def logIf (s : TCPServer) (callback : Bool) (e : Event) : TCPServer :=
  { s with history := s.history ++ if callback then [e] else [] }

def setHandler (s : TCPServer) (tid : Tid) (h : Handler) : TCPServer := { s with handlers := upd s.handlers tid (some h) }

def setUser (s : TCPServer) (u : Tid) (pc : UserPc) : TCPServer := { s with users := upd s.users u pc }

def setSocket (s : TCPServer) (fd : Socket) (c : Option Conn) : TCPServer := { s with sockets := upd s.sockets fd c }

end TCPServer

/-! ## Actions -/

inductive AcceptAct where
  | go
  /-- `accept` returns a connection. -/
  | connection (fd : Nat)
  /-- `accept` fails. -/
  | error (e : Errno)
  deriving DecidableEq, Repr

inductive HandlerAct where
  | go
  /-- `recv` returns `n` bytes. -/
  | data (n : Nat)
  /-- `recv` returns 0 or fails. -/
  | ended
  deriving DecidableEq, Repr

inductive StopAct where
  | call
  | go
  /-- The loop over `m_threads` meets the entry of `fd`. -/
  | visit (fd : Socket)
  deriving DecidableEq, Repr

inductive UserAct where
  | read (c : ReadCall)
  | available (i : Socket)
  | clear (i : Socket)
  | go
  deriving DecidableEq, Repr

inductive WorldAct where
  | sends (fd : Socket) (bytes : List Byte)
  | closes (fd : Socket)
  | fails (fd : Socket) (e : Errno)
  /-- The rest of the process opens a descriptor. -/
  | opens (fd : Nat)
  | shuts (fd : Socket)
  deriving DecidableEq, Repr

inductive Act where
  | accept (a : AcceptAct)
  | handler (tid : Tid) (a : HandlerAct)
  | stop (a : StopAct)
  | user (u : Tid) (a : UserAct)
  | world (a : WorldAct)
  deriving DecidableEq, Repr

namespace TCPServer

/-! ## Steps -/

/-- A step of `accept_connections`. -/
def acceptStep (s : TCPServer) : AcceptAct → Option TCPServer
  | .go =>
    match s.accept with
    | .check => some { s with accept := if s.running then .accept else .done }
    | .insertClient fd => some { s with reg := s.reg.insertClient fd, accept := .setFifo fd }
    | .setFifo fd => some { s with reg := s.reg.setFifo fd [], accept := .makeMutex fd }
    | .makeMutex fd => some { s with reg := s.reg.lock fd, accept := .startThread fd }
    | .startThread fd =>
      some { s.setHandler s.next ⟨fd, .check⟩ with next := s.next + 1, accept := .assign fd s.next }
    | .assign fd tid =>
      match s.threads.lookup fd with
      | some (some _) => some { s with fault := some .terminate }
      | _ => some { s with threads := s.threads.insert fd (some tid), accept := .notify fd }
    | .notify fd => some { s.logIf s.hasCallbackNewClient (.newClient fd) with accept := .check }
    | .accept => none
    | .done => none
  | .connection fd =>
    if s.accept = .accept ∧ s.LowestFree fd then
      some { s.setSocket fd (some ⟨[], none⟩) with accept := .insertClient fd }
    else none
  | .error e => if s.accept = .accept then some { s with accept := if wouldBlock e then .check else .done } else none

/-- A step of `handle_client`. -/
def handlerStep (s : TCPServer) (tid : Tid) (a : HandlerAct) : Option TCPServer :=
  match s.handlers tid with
  | none => none
  | some ⟨fd, pc⟩ =>
    let goto (s : TCPServer) (pc : HandlerPc) := s.setHandler tid ⟨fd, pc⟩
    match a with
    | .go =>
      match pc with
      | .check => some (goto s (if s.running then .recv else .close))
      | .callback chunk => some (goto (s.logIf s.hasCallback (.called fd chunk)) .check)
      | .close => some (goto (s.setSocket fd none) .eraseClient)
      | .eraseClient => some (goto { s with reg := s.reg.eraseClient fd } .eraseFifo)
      | .eraseFifo => some (goto { s with reg := s.reg.eraseFifo fd } .eraseMutex)
      | .eraseMutex => some (goto { s with reg := s.reg.eraseMutex fd } .done)
      | .recv => none
      | .done => none
    | .data n =>
      match pc, s.sockets fd with
      | .recv, some c =>
        if 0 < n ∧ n ≤ 1024 ∧ n ≤ c.pending.length then
          let chunk := c.pending.take n
          let s := s.setSocket fd (some { c with pending := c.pending.drop n })
          some (goto ({ s with reg := s.reg.append fd chunk }.log (.received fd chunk)) (.callback chunk))
        else none
      | _, _ => none
    | .ended =>
      match pc, s.sockets fd with
      | .recv, some ⟨[], some .closed⟩ => some (goto s .close)
      | .recv, some ⟨[], some (.error e)⟩ => some (goto s (if wouldBlock e then .check else .close))
      | _, _ => none

/-- A step of `TCPServer::stop`. By `base` the flag is false, so `Server::stop` returns
    at once. An entry inserted during the loop may be met by it or not. -/
def stopStep (s : TCPServer) : StopAct → Option TCPServer
  | .call => if s.stop = .idle then some { s with stop := .check } else none
  | .go =>
    match s.stop with
    | .check => some { s with stop := if s.running then .clear else .returned }
    | .clear => some { s with running := false, stop := .begin }
    | .begin => some { s with stop := .loop s.threads.keys }
    | .loop [] => some { s with stop := .joinAccept }
    | .join fd tid todo =>
      if (s.handlers tid).any (·.pc = .done) then
        some { s with threads := s.threads.insert fd none, stop := .loop todo }
      else none
    | .joinAccept =>
      if s.acceptJoinable then
        if s.accept = .done then some { s with acceptJoinable := false, stop := .base } else none
      else some { s with stop := .base }
    | .base => some { s with running := false, stop := .returned }
    | .idle => none
    | .loop (_ :: _) => none
    | .returned => none
  | .visit fd =>
    match s.stop, s.threads.lookup fd with
    | .loop todo, some (some tid) => some { s with stop := .join fd tid (todo.erase fd) }
    | .loop todo, some none => some { s with stop := .loop (todo.erase fd) }
    | _, _ => none

/-- A step of `read_byte`, `is_available` or `clear_fifo`. A call starts with its
    membership test. -/
def userStep (s : TCPServer) (u : Tid) : UserAct → Option TCPServer
  | .read c =>
    if s.users u = .idle then
      if c.i ∈ s.reg.clients then some (s.setUser u (.sample c)) else some (s.log (.refused c.i))
    else none
  | .available i =>
    if s.users u = .idle then
      if i ∈ s.reg.clients then some (s.setUser u (.available i)) else some (s.log (.refused i))
    else none
  | .clear i => if s.users u = .idle then some { s with reg := s.reg.clearFifo i } else none
  | .go =>
    match s.users u with
    | .sample c =>
      let (reg, n) := s.reg.sample c.i
      some ({ s with reg := reg }.setUser u (if c.blocking ∧ n < c.size then .wait c else .clamp c))
    | .wait c =>
      let (reg, n) := s.reg.sample c.i
      some ({ s with reg := reg }.setUser u (if n < c.size then .wait c else .clamp c))
    | .clamp c =>
      let (reg, n) := s.reg.clamp c.i c.size
      some ({ s with reg := reg }.setUser u (.copy c n))
    | .copy c n =>
      match s.reg.copy c.i n c.erase with
      | some (reg, bytes) => some (({ s with reg := reg }.log (.read c bytes)).setUser u .idle)
      | none => some { s with fault := some .outOfBounds }
    | .available i =>
      let (reg, n) := s.reg.sample i
      some (({ s with reg := reg }.log (.available i n)).setUser u .idle)
    | .idle => none

/-- What the clients and the rest of the process do. -/
def worldStep (s : TCPServer) : WorldAct → Option TCPServer
  | .sends fd bytes =>
    match s.sockets fd with
    | some ⟨pending, none⟩ => some (s.setSocket fd (some ⟨pending ++ bytes, none⟩))
    | _ => none
  | .closes fd =>
    match s.sockets fd with
    | some ⟨pending, none⟩ => some (s.setSocket fd (some ⟨pending, some .closed⟩))
    | _ => none
  | .fails fd e =>
    match s.sockets fd with
    | some ⟨_, none⟩ => some (s.setSocket fd (some ⟨[], some (.error e)⟩))
    | _ => none
  | .opens fd => if s.LowestFree fd then some { s with others := (fd : Socket) :: s.others } else none
  | .shuts fd => if fd ∈ s.others then some { s with others := s.others.erase fd } else none

def step (s : TCPServer) (a : Act) : Option TCPServer :=
  if s.fault.isSome then none
  else
    match a with
    | .accept a => s.acceptStep a
    | .handler tid a => s.handlerStep tid a
    | .stop a => s.stopStep a
    | .user u a => s.userStep u a
    | .world a => s.worldStep a

end TCPServer

end ComClient.Server
