/-
  ComClient.Server.Lifecycle — `start()` and `stop()` of a server object between calls
  (`Server` in `src/include/com_client.hpp`, and what `TCPServer` and `UDPServer` make of
  `listen_for_connections` and `stop`).

  A start is given the answers of the system calls it makes (`Kernel`); `strerror` is a
  parameter. `sockets` are the descriptors that the object's calls have created and that
  are still open. The threads are in `ComClient.Server.Tcp` and `ComClient.Server.Udp`:
  here a `stop()` has joined them when it returns.

  - `stop_keeps_the_socket`: both `stop` clear the flag before they call `Server::stop`,
    which then returns at once, so no socket is ever closed.
  - `held_sockets_iff_never_stopped`: a stopped server holds no socket as long as it was
    never stopped while running, and no longer.
  - `failed_start_leaves_it_running`: a start that throws leaves the flag set, and every
    later start throws that the server is already running.
  - `start_failed`: what each failure throws, and which ones leave the socket open, too.
-/

import ComClient.Server.Tcp

namespace ComClient.Lifecycle

open ComClient.Lts
open ComClient.Server (Socket Errno)

def INVALID_SOCKET : Socket := -1

inductive Kind where
  | tcp
  | udp
  deriving DecidableEq, Repr

structure Server where
  kind : Kind
  port : Int
  maxConnections : Int
  nagled : Bool
  quickack : Bool
  running : Bool
  fd : Socket
  sockets : List Socket
  deriving DecidableEq, Repr

inductive Thrown where
  /-- `std::runtime_error` -/
  | runtimeError (what : String)
  /-- `log_error` -/
  | logError (text : String)
  deriving DecidableEq, Repr

inductive SysCall where
  | reuseaddr (fd : Socket) (enable : Int)
  | nodelay (fd : Socket) (flag : Int)
  | quickack (fd : Socket) (flag : Int)
  | bind (fd : Socket) (port : BitVec 16)
  | listen (fd : Socket) (backlog : Int)
  deriving DecidableEq, Repr

/-- What the system calls of a start return: `socket` a descriptor or an error, the others
    an error or none. -/
structure Kernel where
  socket : Option Nat
  call : SysCall → Option Errno

abbrev Outcome := Except Thrown Unit × Server

/-- A server that was just built. -/
def Server.new (kind : Kind) (port maxConnections : Int) (nagled quickack : Bool) : Server :=
  ⟨kind, port, maxConnections, nagled, quickack, false, INVALID_SOCKET, []⟩

def Server.closesocket (s : Server) (fd : Socket) : Server := { s with sockets := s.sockets.erase fd }

def Server.opened (s : Server) (fd : Socket) : Server := { s with fd := fd, sockets := fd :: s.sockets }

def flag (b : Bool) : Int := if b then 1 else 0

section

variable (strerror : Errno → String) (k : Kernel) (s : Server)

def TCPServer.listenForConnections : Outcome :=
  match k.socket with
  | none => (.error (.logError "socket() invalid"), { s with fd := INVALID_SOCKET })
  | some fd =>
    let s := s.opened fd
    match k.call (.reuseaddr fd 1) with
    | some _ => (.error (.logError "Failed to set socket option"), s.closesocket fd)
    | none =>
      match k.call (.nodelay fd (flag s.nagled)) with
      | some e => (.error (.logError ("Failed to set TCP_NODELAY [" ++ strerror e ++ "] on socket")), s)
      | none =>
        match k.call (.quickack fd (flag s.quickack)) with
        | some e => (.error (.logError ("Failed to set TCP_QUICKACK [" ++ strerror e ++ "] on socket")), s)
        | none =>
          match k.call (.bind fd (.ofInt 16 s.port)) with
          | some _ => (.error (.logError ("Failed to bind to port " ++ toString s.port)), s.closesocket fd)
          | none =>
            match k.call (.listen fd s.maxConnections) with
            | some _ => (.error (.logError ("Failed to listen on port " ++ toString s.port)), s.closesocket fd)
            | none => (.ok (), s)

def UDPServer.listenForConnections : Outcome :=
  match k.socket with
  | none => (.error (.logError "Failed to create UDP socket"), { s with fd := INVALID_SOCKET })
  | some fd =>
    let s := s.opened fd
    match k.call (.bind fd (.ofInt 16 s.port)) with
    | some _ => (.error (.logError ("Failed to bind UDP socket to port " ++ toString s.port)), s.closesocket fd)
    | none => (.ok (), s)

def listenForConnections : Outcome :=
  match s.kind with
  | .tcp => TCPServer.listenForConnections strerror k s
  | .udp => UDPServer.listenForConnections k s

def alreadyRunning : Thrown := .runtimeError "Server is already running"

/-- `Server::start` -/
def start : Outcome :=
  if s.running then (.error alreadyRunning, s) else listenForConnections strerror k { s with running := true }

end

/-- `Server::stop` -/
def Server.baseStop (s : Server) : Server :=
  if s.running then { { s with running := false }.closesocket s.fd with fd := INVALID_SOCKET } else s

/-- `TCPServer::stop` -/
def TCPServer.stop (s : Server) : Server := if s.running then { s with running := false }.baseStop else s

/-- `UDPServer::stop` -/
def UDPServer.stop (s : Server) : Server := if s.running then { s with running := false }.baseStop else s

def Server.stop (s : Server) : Server :=
  match s.kind with
  | .tcp => TCPServer.stop s
  | .udp => UDPServer.stop s

variable {strerror : Errno → String} {k : Kernel} {s t : Server}

/-! ## A failed start -/

/-- After a start has thrown, the server is as it was before. -/
structure LeftAsItWas (strerror : Errno → String) (s t : Server) : Prop where
  stopped : t.running = false
  sockets : t.sockets = s.sockets
  fd : t.fd = s.fd
  restarts : ∀ k, k.socket ≠ none → (∀ c, k.call c = none) → (start strerror k t).1 = .ok ()

theorem listen_running : (listenForConnections strerror k s).2.running = s.running := by
  unfold listenForConnections TCPServer.listenForConnections UDPServer.listenForConnections
  dsimp only
  repeat' split
  all_goals rfl

/-- What a failing system call throws, the socket it leaves open, and `m_fd`. -/
structure Failed (k : Kernel) (s t : Server) (thrown : Thrown) : Prop where
  text : ∃ text, thrown = .logError text
  sockets : t.sockets = s.sockets ∨ ∃ fd : Nat, k.socket = some fd ∧ t.sockets = (fd : Socket) :: s.sockets ∧ s.kind = .tcp ∧
    ((k.call (.nodelay fd (flag s.nagled))).isSome ∨ (k.call (.quickack fd (flag s.quickack))).isSome)
  fd : t.fd = (k.socket.map fun fd => (fd : Socket)).getD INVALID_SOCKET

theorem closesocket_opened (s : Server) (fd : Socket) : ((s.opened fd).closesocket fd).sockets = s.sockets :=
  List.erase_cons_head fd s.sockets

theorem failed_no_socket (hfd : k.socket = none) (text : String) :
    Failed k s { s with fd := INVALID_SOCKET } (.logError text) := by
  refine ⟨⟨text, rfl⟩, Or.inl rfl, ?_⟩
  rw [hfd]
  rfl

/-- The call fails and its branch closes the socket. -/
theorem failed_closed {fd : Nat} (hfd : k.socket = some fd) (text : String) :
    Failed k s ((s.opened fd).closesocket fd) (.logError text) := by
  refine ⟨⟨text, rfl⟩, Or.inl (closesocket_opened s fd), ?_⟩
  rw [hfd]
  rfl

/-- The call fails and its branch leaves the socket open. -/
theorem failed_open {fd : Nat} (hfd : k.socket = some fd) (hkind : s.kind = .tcp)
    (hcall : (k.call (.nodelay fd (flag s.nagled))).isSome ∨ (k.call (.quickack fd (flag s.quickack))).isSome)
    (text : String) : Failed k s (s.opened fd) (.logError text) := by
  refine ⟨⟨text, rfl⟩, Or.inr ⟨fd, hfd, rfl, hkind, hcall⟩, ?_⟩
  rw [hfd]
  rfl

theorem tcp_listen_failed {thrown : Thrown} (hkind : s.kind = .tcp)
    (h : TCPServer.listenForConnections strerror k s = (.error thrown, t)) : Failed k s t thrown := by
  unfold TCPServer.listenForConnections at h
  cases hfd : k.socket with
  | none =>
    rw [hfd] at h
    cases h
    exact failed_no_socket hfd _
  | some fd =>
    rw [hfd] at h
    dsimp only at h
    split at h
    · cases h
      exact failed_closed hfd _
    split at h
    · rename_i e he
      cases h
      exact failed_open hfd hkind (Or.inl (Option.isSome_iff_exists.mpr ⟨e, he⟩)) _
    split at h
    · rename_i e he
      cases h
      exact failed_open hfd hkind (Or.inr (Option.isSome_iff_exists.mpr ⟨e, he⟩)) _
    split at h
    · cases h
      exact failed_closed hfd _
    split at h
    · cases h
      exact failed_closed hfd _
    · cases h

theorem udp_listen_failed {thrown : Thrown} (h : UDPServer.listenForConnections k s = (.error thrown, t)) :
    Failed k s t thrown := by
  unfold UDPServer.listenForConnections at h
  cases hfd : k.socket with
  | none =>
    rw [hfd] at h
    cases h
    exact failed_no_socket hfd _
  | some fd =>
    rw [hfd] at h
    dsimp only at h
    split at h
    · cases h
      exact failed_closed hfd _
    · cases h

theorem listen_failed {thrown : Thrown} (h : listenForConnections strerror k s = (.error thrown, t)) :
    Failed k s t thrown := by
  unfold listenForConnections at h
  split at h
  · rename_i hkind
    exact tcp_listen_failed hkind h
  · exact udp_listen_failed h

/-- A failing start loses the old `m_fd`, and a `TCPServer` leaves the new socket open when
    `TCP_NODELAY` or `TCP_QUICKACK` is refused. -/
theorem start_failed {thrown : Thrown} (hs : s.running = false) (h : start strerror k s = (.error thrown, t)) :
    Failed k s t thrown := by
  rw [start, hs, if_neg Bool.false_ne_true] at h
  obtain ⟨htext, hsockets, hfd⟩ := listen_failed h
  exact ⟨htext, hsockets, hfd⟩

theorem start_running (strerror : Errno → String) (k : Kernel) (hs : s.running = false) :
    (start strerror k s).2.running = true := by
  rw [start, hs, if_neg Bool.false_ne_true, listen_running]

theorem start_of_running (hs : s.running = true) : start strerror k s = (.error alreadyRunning, s) := if_pos hs

/-- A start that throws is never undone: the flag stays set, and every later start throws
    that the server is running. -/
theorem failed_start_leaves_it_running (hs : s.running = false) {thrown : Thrown}
    (h : start strerror k s = (.error thrown, t)) :
    ¬ LeftAsItWas strerror s t ∧ thrown ≠ alreadyRunning ∧ t.running = true ∧
      ∀ k', start strerror k' t = (.error alreadyRunning, t) := by
  have hr : t.running = true := by
    have hr := start_running strerror k hs
    rwa [h] at hr
  refine ⟨?_, ?_, hr, fun k' => start_of_running hr⟩
  · intro hleft
    rw [hleft.stopped] at hr
    cases hr
  · obtain ⟨text, rfl⟩ := (start_failed hs h).text
    exact nofun

/-- `bind` finds the port in use. -/
def portInUse : Kernel where
  socket := some 3
  call
    | .bind _ _ => some 98
    | _ => none

/-- Every system call succeeds. -/
def willing (fd : Nat) : Kernel where
  socket := some fd
  call _ := none

def aServer : Server := .new .tcp 19876 10 false false

theorem failed_start_leaves_a_server_running :
    ¬ LeftAsItWas (fun _ => "") aServer (start (fun _ => "") portInUse aServer).2 ∧
      Thrown.logError "Failed to bind to port 19876" ≠ alreadyRunning ∧
      (start (fun _ => "") portInUse aServer).2.running = true ∧
      ∀ k', start (fun _ => "") k' (start (fun _ => "") portInUse aServer).2 =
        (.error alreadyRunning, (start (fun _ => "") portInUse aServer).2) := by
  have h : start (fun _ => "") portInUse aServer =
      (.error (.logError "Failed to bind to port 19876"), (start (fun _ => "") portInUse aServer).2) := rfl
  exact failed_start_leaves_it_running rfl h

/-- The port is in use; when it is free again the server cannot be started. -/
theorem a_busy_port_ends_the_server :
    (start (fun _ => "") portInUse aServer).1 = .error (.logError "Failed to bind to port 19876") ∧
      (start (fun _ => "") portInUse aServer).2.running = true ∧
      (start (fun _ => "") (willing 3) (start (fun _ => "") portInUse aServer).2).1 = .error alreadyRunning := by
  refine ⟨rfl, rfl, rfl⟩

/-! ## Starts and stops -/

/-- A call of the user, of which a start returns normally. -/
inductive Call where
  | start (k : Kernel)
  | stop

/-- `socket` returns a descriptor that is not open. -/
def Kernel.Fresh (k : Kernel) (s : Server) : Prop := ∀ fd ∈ k.socket, (fd : Socket) ∉ s.sockets

instance (k : Kernel) (s : Server) : Decidable (k.Fresh s) := by
  unfold Kernel.Fresh
  infer_instance

def step (strerror : Errno → String) (s : Server) : Call → Option Server
  | .start k =>
    match start strerror k s with
    | (.ok (), t) => if k.Fresh s then some t else none
    | (.error _, _) => none
  | .stop => some s.stop

/-- Both `stop` clear the flag themselves, and `Server::stop` then returns at once. -/
theorem stop_keeps_the_socket (s : Server) : s.stop = { s with running := false } := by
  obtain ⟨kind, port, maxConnections, nagled, quickack, running, fd, sockets⟩ := s
  cases kind <;> cases running <;> rfl

theorem tcp_listen_ok (h : TCPServer.listenForConnections strerror k s = (.ok (), t)) :
    ∃ fd : Nat, k.socket = some fd ∧ t = s.opened fd := by
  unfold TCPServer.listenForConnections at h
  cases hfd : k.socket with
  | none => rw [hfd] at h; cases h
  | some fd =>
    rw [hfd] at h
    dsimp only at h
    repeat' split at h
    all_goals cases h
    exact ⟨fd, rfl, rfl⟩

theorem udp_listen_ok (h : UDPServer.listenForConnections k s = (.ok (), t)) :
    ∃ fd : Nat, k.socket = some fd ∧ t = s.opened fd := by
  unfold UDPServer.listenForConnections at h
  cases hfd : k.socket with
  | none => rw [hfd] at h; cases h
  | some fd =>
    rw [hfd] at h
    dsimp only at h
    split at h <;> cases h
    exact ⟨fd, rfl, rfl⟩

/-- A start that returns found the flag clear and leaves it set, with one socket more. -/
theorem start_ok (h : start strerror k s = (.ok (), t)) :
    s.running = false ∧ ∃ fd : Nat, k.socket = some fd ∧ t = { s with running := true }.opened fd := by
  cases hs : s.running with
  | true => rw [start_of_running hs] at h; cases h
  | false =>
    refine ⟨rfl, ?_⟩
    rw [start, hs, if_neg Bool.false_ne_true] at h
    unfold listenForConnections at h
    split at h
    · exact tcp_listen_ok h
    · exact udp_listen_ok h

theorem step_start (h : step strerror s (.start k) = some t) : start strerror k s = (.ok (), t) := by
  simp only [step] at h
  split at h
  · rename_i u hstart
    obtain ⟨-, hu⟩ := Option.ite_none_right_eq_some.mp h
    cases hu
    exact hstart
  · cases h

/-- Between calls: one socket at most, and none when the server is not running. -/
structure Tidy (s : Server) : Prop where
  one : s.sockets.length ≤ 1
  none : s.running = false → s.sockets = []

/-- The server is tidy, and a `stop()` that finds it running closes its socket. -/
def Closes (s : Server) (a : Call) : Prop :=
  Tidy s ∧ (a = .stop → s.running = true → s.fd ∉ s.stop.sockets ∧ s.stop.fd = INVALID_SOCKET)

def isStop : Call → Bool
  | .start _ => false
  | .stop => true

/-- No `stop()` comes after a start. -/
def neverStopped : List Call → Bool
  | [] => true
  | .stop :: as => neverStopped as
  | .start _ :: as => as.all fun a => !isStop a

/-- From a start on: the next call, if there is one, is a `stop()`, which leaks. -/
theorem closes_iff_of_started {as : List Call} {fd : Nat} (hempty : s.sockets = [])
    (hrun : run (step strerror) ({ s with running := true }.opened fd) as = some t) :
    (Meets (step strerror) Closes ({ s with running := true }.opened fd) as ∧ Tidy t) ↔
      (as.all fun a => !isStop a) = true := by
  have htidy : Tidy ({ s with running := true }.opened fd) := by
    refine ⟨?_, nofun⟩
    simp [Server.opened, hempty]
  cases as with
  | nil =>
    cases hrun
    exact ⟨fun _ => rfl, fun _ => ⟨trivial, htidy⟩⟩
  | cons a as =>
    obtain ⟨m, hm, -⟩ := run_cons.mp hrun
    cases a with
    | start k =>
      obtain ⟨hnot, -⟩ := start_ok (step_start hm)
      cases hnot
    | stop =>
      refine ⟨?_, fun h => by simp [isStop] at h⟩
      intro h
      have hclosed := (h.1.1.2 rfl rfl).1
      rw [stop_keeps_the_socket] at hclosed
      exact absurd List.mem_cons_self hclosed

theorem closes_iff_of_stopped {as : List Call} (hs : s.running = false) (hempty : s.sockets = [])
    (hrun : run (step strerror) s as = some t) :
    (Meets (step strerror) Closes s as ∧ Tidy t) ↔ neverStopped as = true := by
  have htidy : Tidy s := ⟨by simp [hempty], fun _ => hempty⟩
  have hcloses : ∀ a, Closes s a := fun a => ⟨htidy, fun _ hr => by rw [hs] at hr; cases hr⟩
  induction as with
  | nil =>
    cases hrun
    exact ⟨fun _ => rfl, fun _ => ⟨trivial, htidy⟩⟩
  | cons a as ih =>
    obtain ⟨m, hm, hrun'⟩ := run_cons.mp hrun
    rw [meets_cons hm, and_iff_right (hcloses a)]
    cases a with
    | stop =>
      have hsame : m = s := by
        rw [← Option.some.inj hm, stop_keeps_the_socket, ← hs]
      subst hsame
      exact ih hrun'
    | start k =>
      obtain ⟨-, fd, -, rfl⟩ := start_ok (step_start hm)
      exact closes_iff_of_started hempty hrun'

/-- For either kind of server and every run of its calls: each `stop()` that finds it running
    closes its socket, and between calls it holds at most one socket, none when it is not
    running, if and only if no `stop()` comes after a start. -/
theorem held_sockets_iff_never_stopped {kind : Kind} {port maxConnections : Int} {nagled quickack : Bool}
    {as : List Call} (hrun : run (step strerror) (Server.new kind port maxConnections nagled quickack) as = some t) :
    (Meets (step strerror) Closes (Server.new kind port maxConnections nagled quickack) as ∧ Tidy t) ↔
      neverStopped as = true :=
  closes_iff_of_stopped rfl rfl hrun

theorem held_sockets_of_a_started_server :
    ∃ t, run (step fun _ => "") aServer [.stop, .start (willing 3)] = some t ∧
      ((Meets (step fun _ => "") Closes aServer [.stop, .start (willing 3)] ∧ Tidy t) ↔
        neverStopped [.stop, .start (willing 3)] = true) := by
  have hrun : run (step fun _ => "") aServer [.stop, .start (willing 3)] =
      some ({ aServer with running := true }.opened 3) := by decide +kernel
  exact ⟨_, hrun, held_sockets_iff_never_stopped hrun⟩

/-- Start and stop, for both kinds of server: the socket is open, and `m_fd` names it. -/
theorem a_stopped_server_holds_its_socket :
    (run (step fun _ => "") (.new .tcp 19876 10 false false) [.start (willing 3), .stop]).map
        (fun t => (t.running, t.fd, t.sockets)) = some (false, 3, [3]) ∧
      (run (step fun _ => "") (.new .udp 19876 10 false false) [.start (willing 3), .stop]).map
        (fun t => (t.running, t.fd, t.sockets)) = some (false, 3, [3]) := by
  refine ⟨by decide +kernel, by decide +kernel⟩

end ComClient.Lifecycle
