/-
  ComClient.Client.Open — `open_connection` of the three clients (`src/tcp_client.cpp`,
  `src/serial_client.cpp`, `src/udp_client.cpp`, the Linux branches), `from_socket` and
  `close_connection` (`src/com_client.cpp`).

  What the kernel answers is given with the call, descriptor numbers included. The outcome
  of a call has the members of the client afterwards and the list of what was done to
  descriptors, in order; `leftOpen` are those opened and not closed.

  A failed open (`failed_open_undone_iff`): no path that throws closes the descriptor the
  call created, and every one has assigned `m_fd` by then. So a failed open is undone only
  where it created nothing and `m_fd` was -1 before: `socket` itself failed; or neither the
  path nor the device found could be opened, and the scan kept no descriptor.
-/

import ComClient.Transport.Code

namespace ComClient.Client

open ComClient.Transport

/-! ## The code -/

inductive Thrown where
  /-- `throw log_error(text)` -/
  | logError (text : String)
  /-- A `std::string`. -/
  | string (text : String)
  deriving DecidableEq, Repr

inductive File where
  | socket
  | path
  /-- `/dev/input/event<i>` -/
  | event (i : Nat)
  deriving DecidableEq, Repr

/-- What a call does to a descriptor. -/
inductive Effect where
  | opened (fd : Int) (file : File)
  | closed (fd : Int)
  /-- Read from, or written to. -/
  | used (fd : Int)
  deriving DecidableEq, Repr

inductive Ended where
  | returned (n : Int)
  | threw (thrown : Thrown)
  | blocked
  | undefined
  deriving DecidableEq, Repr

structure Outcome where
  ended : Ended
  client : Client
  effects : List Effect

/-- `INVALID_SOCKET` -/
def INVALID_SOCKET : Int := -1

def FD_SETSIZE : Int := 1024

abbrev Errno := Int

/-- The answers to the calls of `TCP::open_connection` and `UDP::open_connection`. -/
structure Net where
  socket : Option Nat
  gethostbyname : String → Option (BitVec 32)
  /-- The errors of the two `fcntl`, by the value of `blocking` they are made for. -/
  getfl : Bool → Option Errno
  setfl : Bool → Option Errno
  connect : SockAddr → Option Errno
  /-- None for -1; else the number of descriptors that are ready. -/
  select : Int → Option Nat
  /-- The value of `SO_ERROR`, if it could be read. -/
  soError : Option Errno

section

variable (strerror : Errno → String) (k : Net)

/-- `SetSocketBlockingEnabled`, with what it leaves in `errno`. -/
def setSocketBlockingEnabled (c : Client) (blocking : Bool) (errno : Errno) : Bool × Errno :=
  if c.fd < 0 then (false, errno)
  else
    match k.getfl blocking with
    | some e => (false, e)
    | none =>
      match k.setfl blocking with
      | some e => (false, e)
      | none => (true, errno)

def EINPROGRESS : Errno := 115

/-- From the test of `SO_ERROR` on. -/
def TCP.finish (c : Client) (effects : List Effect) : Outcome :=
  match k.soError with
  | none => ⟨.threw (.logError " Error retrieving socket options"), c, effects⟩
  | some opt =>
    if opt ≠ 0 then ⟨.threw (.logError (strerror opt)), c, effects⟩
    else ⟨.returned 1, { c with isConnected := true }, effects⟩

def TCP.openConnection (address : String) (port timeout : Int) (c : Client) : Outcome :=
  match k.socket with
  | none => ⟨.threw (.logError "socket() invalid"), { c with fd := INVALID_SOCKET }, []⟩
  | some fd =>
    let c := { c with fd := fd }
    let effects := [.opened fd .socket]
    match k.gethostbyname address with
    | none => ⟨.threw (.logError ("Unknown host" ++ address)), c, effects⟩
    | some host =>
      -- what `SetSocketBlockingEnabled(false)` leaves in `errno` is never looked at
      match k.connect ⟨host, .ofInt 16 port⟩ with
      | none => TCP.finish strerror k c effects
      | some e =>
        let errno := if timeout ≠ -1 then (setSocketBlockingEnabled k c true e).2 else e
        if errno = EINPROGRESS then
          -- `FD_SET` of a descriptor that an `fd_set` has no bit for
          if FD_SETSIZE ≤ c.fd then ⟨.undefined, c, effects⟩
          else
            match k.select timeout with
            | none => ⟨.threw (.logError " Error with select()"), c, effects⟩
            | some 0 => ⟨.threw (.logError " Connection timed out"), c, effects⟩
            | some (_ + 1) => TCP.finish strerror k c effects
        else ⟨.threw (.logError "Connection error"), c, effects⟩

/-- Never sets `m_is_connected`. -/
def UDP.openConnection (address : String) (port : Int) (c : Client) : Outcome :=
  match k.socket with
  | none => ⟨.threw (.logError "socket() invalid"), { c with fd := INVALID_SOCKET }, []⟩
  | some fd =>
    let c := { c with fd := fd }
    let effects := [.opened fd .socket]
    match k.gethostbyname address with
    | none => ⟨.threw (.logError ("Unknown host" ++ address)), c, effects⟩
    | some host => ⟨.returned 1, { c with addrTo := ⟨host, .ofInt 16 port⟩ }, effects⟩

end

/-- The answers to the calls of `Serial::open_connection`. -/
structure Devices where
  openPath : Option Nat
  /-- In the scan. -/
  openEvent : Nat → Option Nat
  /-- What `test` holds as a string after `EVIOCGNAME` on event device `i`. -/
  eventName : Nat → String
  /-- After the scan, of the event device `dev_path` names by then. -/
  reopen : Nat → Option Nat
  tcgetattr : Bool
  tcsetattr : Bool

/-- The scan from event device `i` on, with `n` rounds left: the device that `dev_path`
    names at the end, and what was opened and closed. -/
def scan (k : Devices) (devName : String) : Nat → Nat → Nat × List Effect
  | 0, i => (i - 1, [])
  | n + 1, i =>
    match k.openEvent i with
    | none => scan k devName n (i + 1)
    | some fd =>
      if fd > 0 then
        if devName = k.eventName i then (i, [.opened fd (.event i)])
        else
          let r := scan k devName n (i + 1)
          (r.1, .opened fd (.event i) :: .closed fd :: r.2)
      else
        -- `m_fd > 0` is false for descriptor 0: it is neither asked for its name nor closed
        let r := scan k devName n (i + 1)
        (r.1, .opened fd (.event i) :: r.2)

/-- The first part of `Serial::open_connection`: the value of `m_fd` and what was opened
    and closed. -/
def findDevice (k : Devices) (path : String) : Option Nat × List Effect :=
  match k.openPath with
  | some fd => (some fd, [.opened fd .path])
  | none =>
    let r := scan k path 40 0
    match k.reopen r.1 with
    | some fd => (some fd, r.2 ++ [.opened fd (.event r.1)])
    | none => (none, r.2)

/-- The cases of `switch(baud)`. -/
def speeds : List Int := [9600, 19200, 38400, 57600, 115200, 230400, 460800, 500000, 921600, 1000000]

/-- Nothing ever assigns `m_id`. -/
def mId : String := ""

def Serial.openConnection (k : Devices) (path : String) (baud : Int) (c : Client) : Outcome :=
  let r := findDevice k path
  match r.1 with
  | none => ⟨.threw (.logError "Could not open the serial port."), { c with fd := -1 }, r.2⟩
  | some fd =>
    let c := { c with fd := fd }
    if !k.tcgetattr then ⟨.threw (.logError "Could not get the serial port settings."), c, r.2⟩
    else if baud ∉ speeds then ⟨.threw (.logError "Unsupported baud rate"), c, r.2⟩
    else if !k.tcsetattr then
      ⟨.threw (.string (mId ++ "[ERROR] Could not set the serial port settings.")), c, r.2⟩
    else ⟨.returned c.fd, { c with isConnected := true }, r.2⟩

/-- `from_socket` -/
def fromSocket (s : Int) (c : Client) : Client := { c with fd := s }

/-- `close_connection`, where `n` is what `close` returns: `m_fd` keeps its value. -/
def closeConnection (n : Int) (c : Client) : Outcome := ⟨.returned n, { c with isConnected := false }, [.closed c.fd]⟩

/-! ## What a call does -/

/-- The members after a call that has the descriptor `fd`; `connects` says whether a return
    sets the flag. -/
def Ended.members (connects : Bool) (c : Client) (fd : Int) : Ended → Client
  | .returned _ => { c with fd := fd, isConnected := connects || c.isConnected }
  | _ => { c with fd := fd }

section

variable (strerror : Errno → String) {c : Client}

theorem tcp_finish (k : Net) (fd : Int) (effects : List Effect) :
    (TCP.finish strerror k { c with fd := fd } effects).effects = effects ∧
      (TCP.finish strerror k { c with fd := fd } effects).client =
        (TCP.finish strerror k { c with fd := fd } effects).ended.members true c fd := by
  unfold TCP.finish
  repeat' split
  all_goals exact ⟨rfl, rfl⟩

theorem tcp_open {k : Net} {fd : Nat} (hfd : k.socket = some fd) (address : String) (port timeout : Int) :
    (TCP.openConnection strerror k address port timeout c).effects = [.opened fd .socket] ∧
      (TCP.openConnection strerror k address port timeout c).client =
        (TCP.openConnection strerror k address port timeout c).ended.members true c fd := by
  unfold TCP.openConnection
  simp only [hfd]
  repeat' split
  all_goals first | exact ⟨rfl, rfl⟩ | exact tcp_finish strerror k fd _

theorem tcp_open_no_socket {k : Net} (hfd : k.socket = none) (address : String) (port timeout : Int) :
    TCP.openConnection strerror k address port timeout c =
      ⟨.threw (.logError "socket() invalid"), { c with fd := INVALID_SOCKET }, []⟩ := by
  simp only [TCP.openConnection, hfd]

theorem serial_open {k : Devices} {path : String} {fd : Nat} (hfd : (findDevice k path).1 = some fd) (baud : Int) :
    (Serial.openConnection k path baud c).effects = (findDevice k path).2 ∧
      (Serial.openConnection k path baud c).client =
        (Serial.openConnection k path baud c).ended.members true c fd := by
  unfold Serial.openConnection
  simp only [hfd]
  repeat' split
  all_goals exact ⟨rfl, rfl⟩

theorem serial_open_no_device {k : Devices} {path : String} (hfd : (findDevice k path).1 = none) (baud : Int) :
    Serial.openConnection k path baud c =
      ⟨.threw (.logError "Could not open the serial port."), { c with fd := -1 }, (findDevice k path).2⟩ := by
  simp only [Serial.openConnection, hfd]

end

/-! ## What is left open -/

def track (held : List Int) : Effect → List Int
  | .opened fd _ => fd :: held
  | .closed fd => held.erase fd
  | .used _ => held

/-- The descriptors that were opened and not closed again. -/
def leftOpen (effects : List Effect) : List Int := effects.foldl track []

/-- The scan closes nothing but what it has just opened. -/
theorem scan_track (k : Devices) (devName : String) (n i : Nat) (held : List Int) :
    (scan k devName n i).2.foldl track held = leftOpen (scan k devName n i).2 ++ held := by
  induction n generalizing i held with
  | zero => rfl
  | succ n ih =>
    unfold scan
    cases k.openEvent i with
    | none => exact ih (i + 1) held
    | some fd =>
      by_cases hfd : fd > 0
      · by_cases hname : devName = k.eventName i
        · simp only [if_pos hfd, if_pos hname]
          rfl
        · simp only [if_pos hfd, if_neg hname, leftOpen, List.foldl_cons, track, List.erase_cons_head]
          exact ih (i + 1) held
      · simp only [if_neg hfd, leftOpen, List.foldl_cons, track]
        rw [ih (i + 1) (_ :: held), ih (i + 1) [_], List.append_assoc]
        rfl

/-- The round of the scan for event device `i` keeps no descriptor. -/
def KeepsNone (k : Devices) (devName : String) (i : Nat) : Prop :=
  ∀ fd, k.openEvent i = some fd → 0 < fd ∧ devName ≠ k.eventName i

theorem forall_rounds {P : Nat → Prop} {i n : Nat} :
    (∀ j, i ≤ j → j < i + (n + 1) → P j) ↔ P i ∧ ∀ j, i + 1 ≤ j → j < i + 1 + n → P j := by
  constructor
  · intro h
    exact ⟨h i (by omega) (by omega), fun j h1 h2 => h j (by omega) (by omega)⟩
  · rintro ⟨hi, h⟩ j h1 h2
    by_cases hj : j = i
    · rw [hj]
      exact hi
    · exact h j (by omega) (by omega)

/-- A scan that keeps no descriptor goes through all its rounds. -/
theorem scan_leftOpen_iff (k : Devices) (devName : String) (n i : Nat) :
    leftOpen (scan k devName n i).2 = [] ↔ ∀ j, i ≤ j → j < i + n → KeepsNone k devName j := by
  induction n generalizing i with
  | zero =>
    refine ⟨?_, fun _ => rfl⟩
    intro _ j h1 h2
    omega
  | succ n ih =>
    rw [scan, forall_rounds, ← ih (i + 1)]
    cases hopen : k.openEvent i with
    | none =>
      have hnone : KeepsNone k devName i := by
        intro fd h
        rw [hopen] at h
        cases h
      exact ⟨fun h => ⟨hnone, h⟩, fun h => h.2⟩
    | some fd =>
      have hkeeps : KeepsNone k devName i ↔ 0 < fd ∧ devName ≠ k.eventName i := by
        refine ⟨fun h => h fd hopen, ?_⟩
        intro h fd' h'
        rw [← Option.some.inj (hopen.symm.trans h')]
        exact h
      rw [hkeeps]
      by_cases hfd : fd > 0
      · by_cases hname : devName = k.eventName i
        · simp [hfd, hname, leftOpen, track]
        · simp [hfd, hname, leftOpen, track]
      · simp only [if_neg hfd, leftOpen, List.foldl_cons, track]
        rw [scan_track]
        simp [Nat.eq_zero_of_not_pos hfd]

theorem scan_device_of_keeps_none {k : Devices} {devName : String} {n i : Nat}
    (h : ∀ j, i ≤ j → j < i + n → KeepsNone k devName j) : (scan k devName n i).1 = i + n - 1 := by
  induction n generalizing i with
  | zero => rfl
  | succ n ih =>
    obtain ⟨hi, hrest⟩ := forall_rounds.mp h
    unfold scan
    cases hopen : k.openEvent i with
    | none =>
      simp only [ih hrest]
      omega
    | some fd =>
      obtain ⟨hfd, hname⟩ := hi fd hopen
      simp only [if_pos hfd, if_neg hname, ih hrest]
      omega

theorem leftOpen_append_opened (effects : List Effect) (fd : Int) (file : File) :
    leftOpen (effects ++ [.opened fd file]) = fd :: leftOpen effects := List.foldl_append

/-- The descriptor that is found is the last that was opened. -/
theorem findDevice_last {k : Devices} {path : String} {fd : Nat} (h : (findDevice k path).1 = some fd) :
    ∃ before file, (findDevice k path).2 = before ++ [.opened fd file] := by
  unfold findDevice at h ⊢
  cases hpath : k.openPath with
  | some fd' =>
    rw [hpath] at h
    cases h
    exact ⟨[], .path, rfl⟩
  | none =>
    simp only [hpath] at h ⊢
    cases hagain : k.reopen (scan k path 40 0).1 with
    | none => simp [hagain] at h
    | some fd' =>
      simp only [hagain, Option.some.injEq] at h ⊢
      rw [h]
      exact ⟨_, _, rfl⟩

theorem findDevice_mem {k : Devices} {path : String} {fd : Nat} (h : (findDevice k path).1 = some fd) :
    (fd : Int) ∈ leftOpen (findDevice k path).2 := by
  obtain ⟨before, file, hlast⟩ := findDevice_last h
  rw [hlast, leftOpen_append_opened]
  exact List.mem_cons_self

/-- Neither the path nor the device found can be opened, and the scan keeps nothing. -/
theorem findDevice_none_iff (k : Devices) (path : String) :
    (findDevice k path).1 = none ∧ leftOpen (findDevice k path).2 = [] ↔
      k.openPath = none ∧ k.reopen 39 = none ∧ ∀ i < 40, KeepsNone k path i := by
  have hscan := scan_leftOpen_iff k path 40 0
  have hrounds : (∀ j, 0 ≤ j → j < 0 + 40 → KeepsNone k path j) ↔ ∀ i < 40, KeepsNone k path i := by
    simp
  unfold findDevice
  cases k.openPath with
  | some fd => simp
  | none =>
    dsimp only
    by_cases hkeeps : ∀ i < 40, KeepsNone k path i
    · have hlast : (scan k path 40 0).1 = 39 := scan_device_of_keeps_none (hrounds.mpr hkeeps)
      have hleft := hscan.mpr (hrounds.mpr hkeeps)
      rw [hlast]
      cases k.reopen 39 with
      | none => simpa [hleft] using hkeeps
      | some fd => simp
    · have hleft : leftOpen (scan k path 40 0).2 ≠ [] := fun h => hkeeps (hrounds.mp (hscan.mp h))
      cases k.reopen (scan k path 40 0).1 with
      | none => simp only [hleft, hkeeps, and_false]
      | some fd => simp [hkeeps]

/-! ## A failed open -/

/-- A failed call has left the client as it was. -/
structure Undone (c : Client) (o : Outcome) : Prop where
  closed : leftOpen o.effects = []
  fd : o.client.fd = c.fd
  isConnected : o.client.isConnected = c.isConnected

theorem tcp_undone_iff (strerror : Errno → String) (k : Net) (address : String) (port timeout : Int) (c : Client) :
    Undone c (TCP.openConnection strerror k address port timeout c) ↔ k.socket = none ∧ c.fd = INVALID_SOCKET := by
  cases hfd : k.socket with
  | none =>
    rw [tcp_open_no_socket strerror hfd]
    constructor
    · intro h
      exact ⟨rfl, h.fd.symm⟩
    · intro h
      exact ⟨rfl, h.2.symm, rfl⟩
  | some fd =>
    obtain ⟨heffects, -⟩ := tcp_open strerror (c := c) hfd address port timeout
    refine ⟨?_, fun h => nomatch h.1⟩
    intro h
    have hclosed := h.closed
    rw [heffects] at hclosed
    cases hclosed

theorem serial_undone_iff (k : Devices) (path : String) (baud : Int) (c : Client) :
    Undone c (Serial.openConnection k path baud c) ↔
      (k.openPath = none ∧ k.reopen 39 = none ∧ ∀ i < 40, KeepsNone k path i) ∧ c.fd = -1 := by
  rw [← findDevice_none_iff]
  cases hfd : (findDevice k path).1 with
  | none =>
    rw [serial_open_no_device hfd]
    constructor
    · intro h
      exact ⟨⟨rfl, h.closed⟩, h.fd.symm⟩
    · intro h
      exact ⟨h.1.2, h.2.symm, rfl⟩
  | some fd =>
    refine ⟨?_, fun h => nomatch h.1.1⟩
    intro h
    have hclosed := h.closed
    rw [(serial_open hfd baud).1] at hclosed
    have hmem := findDevice_mem hfd
    rw [hclosed] at hmem
    cases hmem

/-- For every client and every call that throws: the client is as it was, with nothing left
    open, if and only if no descriptor was created and kept and `m_fd` was already -1. For
    TCP: `socket` failed. For a serial port: the path could not be opened, nor, after a scan
    without a match that never got descriptor 0, the last event device. -/
theorem failed_open_undone_iff (strerror : Errno → String) (c : Client) :
    (∀ k address port timeout, (∃ thrown, (TCP.openConnection strerror k address port timeout c).ended = .threw thrown) →
      (Undone c (TCP.openConnection strerror k address port timeout c) ↔ k.socket = none ∧ c.fd = INVALID_SOCKET)) ∧
    ∀ k path baud, (∃ thrown, (Serial.openConnection k path baud c).ended = .threw thrown) →
      (Undone c (Serial.openConnection k path baud c) ↔
        (k.openPath = none ∧ k.reopen 39 = none ∧ ∀ i < 40, KeepsNone k path i) ∧ c.fd = -1) := by
  refine ⟨?_, ?_⟩
  · intro k address port timeout _
    exact tcp_undone_iff strerror k address port timeout c
  · intro k path baud _
    exact serial_undone_iff k path baud c

/-- A name server that knows no host. -/
def unknownHost (fd : Nat) : Net where
  socket := some fd
  gethostbyname _ := none
  getfl _ := none
  setfl _ := none
  connect _ := none
  select _ := none
  soError := some 0

/-- Every call on the device succeeds. -/
def plugged (fd : Nat) : Devices where
  openPath := some fd
  openEvent _ := none
  eventName _ := ""
  reopen _ := none
  tcgetattr := true
  tcsetattr := true

theorem failed_open_of_a_connected_client :
    Undone someClient (TCP.openConnection (fun _ => "") (unknownHost 4) "nowhere" 5000 (-1) someClient) ↔
      (unknownHost 4).socket = none ∧ someClient.fd = INVALID_SOCKET :=
  (failed_open_undone_iff (fun _ => "") someClient).1 (unknownHost 4) "nowhere" 5000 (-1) ⟨_, rfl⟩

/-- A connected client is opened again for a host without an address, or for a rate that no
    port has: it reports a connection on a descriptor that never had one. -/
theorem a_failed_reopen_reports_a_connection :
    (∀ o ∈ [TCP.openConnection (fun _ => "") (unknownHost 4) "nowhere" 5000 (-1) someClient,
        Serial.openConnection (plugged 4) "/dev/ttyUSB0" 1234 someClient],
      ¬ Undone someClient o ∧ o.client.fd = 4 ∧ o.client.isConnected = true ∧ leftOpen o.effects = [4]) ∧
    (TCP.openConnection (fun _ => "") (unknownHost 4) "nowhere" 5000 (-1) someClient).ended =
      .threw (.logError "Unknown hostnowhere") ∧
    (Serial.openConnection (plugged 4) "/dev/ttyUSB0" 1234 someClient).ended =
      .threw (.logError "Unsupported baud rate") := by
  refine ⟨?_, by decide +kernel, by decide +kernel⟩
  intro o ho
  have hleft : o.client.fd = 4 ∧ o.client.isConnected = true ∧ leftOpen o.effects = [4] := by
    rcases List.mem_pair.mp ho with rfl | rfl <;> decide +kernel
  refine ⟨?_, hleft⟩
  intro hundone
  rw [hundone.closed] at hleft
  cases hleft.2.2

end ComClient.Client
