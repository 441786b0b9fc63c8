/-
  ComClient.Server.Calls — a `TCPServer` whose operations are one step each: a connection
  is registered, data arrives, a handler cleans up, and `read_byte`, `clear_fifo`,
  `is_available`, `send_data` and `broadcast` are called, with any socket.

  `accept_is_a_run`, `disconnect_is_a_run`, `readByte_is_a_run` and `isAvailable_is_a_run`
  connect the operations with the threads of `ComClient.Server.Tcp`: an operation does to
  the containers what its thread does when it is not interrupted.

  - `keys_agree_iff_clears_known`: the three containers hold the sockets of the running
    handlers in every state of a run if and only if each `clear_fifo` was called for a
    registered socket.
  - `clear_of_a_stranger_leaves_keys`: for another one it leaves a FIFO and a mutex behind.
  - `all_due_sent_iff_no_broadcast`: each client is sent what the calls owe it if and only
    if no call of `broadcast` had something to say to somebody.
  - `a_broadcast_reaches_nobody`: `TCPServer` inherits the `broadcast` that does nothing.
-/

import ComClient.Server.Steps

namespace ComClient.Server

open ComClient.Lts
open ComClient.Transport (Byte toInt)

/-! ## Operations -/

/-- `accept_connections`: the three containers learn of the client. -/
def Registry.register (r : Registry) (fd : Socket) : Registry := ((r.insertClient fd).setFifo fd []).lock fd

/-- `handle_client`: the clean-up. -/
def Registry.unregister (r : Registry) (fd : Socket) : Registry := ((r.eraseClient fd).eraseFifo fd).eraseMutex fd

/-- The conversion to `int8_t`. -/
def toInt8 (n : Int) : Int := Int.bmod n 256

/-- `read_byte`: what it leaves, returns and copies. None where it goes on waiting. -/
def Registry.readByte (r : Registry) (c : ReadCall) : Option (Registry × Int × List Byte) :=
  if c.i ∈ r.clients then
    let (r, available) := r.sample c.i
    if c.blocking ∧ available < c.size then none
    else
      let (r, size) := r.clamp c.i c.size
      (r.copy c.i size c.erase).map fun (r, bytes) => (r, toInt8 size, bytes)
  else some (r, -1, [])

def Registry.isAvailable (r : Registry) (i : Socket) : Registry × Int :=
  if i ∈ r.clients then ((r.sample i).1, toInt (r.sample i).2) else (r, -1)

structure Session where
  reg : Registry
  /-- The sockets whose handler has been started and has not finished. -/
  handlers : List Socket
  /-- The entries of `m_threads` that hold a joinable thread. -/
  joinable : List Socket
  /-- The sockets and bytes that `send` was called with. -/
  sent : List (Socket × List Byte)

inductive Op where
  | accept (fd : Socket)
  | data (fd : Socket) (bytes : List Byte)
  | disconnect (fd : Socket)
  | readByte (c : ReadCall)
  | clearFifo (i : Socket)
  | isAvailable (i : Socket)
  | sendData (bytes : List Byte) (i : Socket)
  | broadcast (bytes : List Byte)
  deriving DecidableEq, Repr

namespace Session

def new : Session := ⟨.empty, [], [], []⟩

/-- The body of the loop of `send_data` over `m_clients`. -/
def sendTo (bytes : List Byte) (i : Socket) (s : Session) (client : Socket) : Session :=
  if client = i then { s with reg := s.reg.lock i, sent := s.sent ++ [(client, bytes)] } else s

def sendData (s : Session) (bytes : List Byte) (i : Socket) : Session := s.reg.clients.foldl (sendTo bytes i) s

/-- `Server::broadcast`, which `TCPServer` does not override. -/
def broadcast (s : Session) (_bytes : List Byte) : Session := s

/-- A connection over an entry that is joinable ends the process. -/
def step (s : Session) : Op → Option Session
  | .accept fd =>
    if fd ∈ s.handlers ∨ fd ∈ s.joinable then none
    else some { s with reg := s.reg.register fd, handlers := fd :: s.handlers, joinable := fd :: s.joinable }
  | .data fd bytes =>
    if fd ∈ s.handlers ∧ 0 < bytes.length ∧ bytes.length ≤ 1024 then some { s with reg := s.reg.append fd bytes }
    else none
  | .disconnect fd =>
    if fd ∈ s.handlers then some { s with reg := s.reg.unregister fd, handlers := s.handlers.erase fd } else none
  | .readByte c => (s.reg.readByte c).map fun (reg, _, _) => { s with reg := reg }
  | .clearFifo i => some { s with reg := s.reg.clearFifo i }
  | .isAvailable i => some { s with reg := (s.reg.isAvailable i).1 }
  | .sendData bytes i => some (s.sendData bytes i)
  | .broadcast bytes => some (s.broadcast bytes)

end Session

/-! ## Keys -/

/-- An operation on `i` adds no other key, and takes none away. -/
structure Adds (i : Socket) (r r' : Registry) : Prop where
  clients : r'.clients = r.clients
  fifos : ∀ j, j ∈ r'.fifos → j = i ∨ j ∈ r.fifos
  keepsFifos : ∀ j, j ∈ r.fifos → j ∈ r'.fifos
  mutexes : ∀ j, j ∈ r'.mutexes → j = i ∨ j ∈ r.mutexes
  keepsMutexes : ∀ j, j ∈ r.mutexes → j ∈ r'.mutexes

section

variable {i : Socket} {r r' r'' : Registry}

theorem Adds.trans (h : Adds i r r') (h' : Adds i r' r'') : Adds i r r'' where
  clients := h'.clients.trans h.clients
  fifos j hj := (h'.fifos j hj).elim Or.inl (h.fifos j)
  keepsFifos j hj := h'.keepsFifos j (h.keepsFifos j hj)
  mutexes j hj := (h'.mutexes j hj).elim Or.inl (h.mutexes j)
  keepsMutexes j hj := h'.keepsMutexes j (h.keepsMutexes j hj)

theorem adds_lock (i : Socket) (r : Registry) : Adds i r (r.lock i) where
  clients := rfl
  fifos _ hj := Or.inr hj
  keepsFifos _ hj := hj
  mutexes j hj := (Registry.mem_mutexes_lock r i j).mp hj
  keepsMutexes j hj := (Registry.mem_mutexes_lock r i j).mpr (Or.inr hj)

theorem adds_touchFifo (i : Socket) (r : Registry) : Adds i r (r.touchFifo i) where
  clients := Registry.clients_touchFifo r i
  fifos j hj := (Registry.mem_fifos_touchFifo r i j).mp hj
  keepsFifos j hj := (Registry.mem_fifos_touchFifo r i j).mpr (Or.inr hj)
  mutexes j hj := Or.inr (by rwa [Registry.mutexes_touchFifo] at hj)
  keepsMutexes j hj := by rwa [Registry.mutexes_touchFifo]

theorem adds_setFifo (i : Socket) (r : Registry) (bytes : List Byte) : Adds i r (r.setFifo i bytes) where
  clients := rfl
  fifos j hj := (Registry.mem_fifos_setFifo r i j bytes).mp hj
  keepsFifos j hj := (Registry.mem_fifos_setFifo r i j bytes).mpr (Or.inr hj)
  mutexes _ hj := Or.inr hj
  keepsMutexes _ hj := hj

theorem adds_append (i : Socket) (r : Registry) (bytes : List Byte) : Adds i r (r.append i bytes) :=
  (adds_lock i r).trans (adds_setFifo i _ _)

theorem adds_clearFifo (i : Socket) (r : Registry) : Adds i r (r.clearFifo i) :=
  (adds_lock i r).trans (adds_setFifo i _ _)

theorem adds_sample (i : Socket) (r : Registry) : Adds i r (r.sample i).1 := (adds_lock i r).trans (adds_touchFifo i _)

theorem adds_copy {n : Nat} {erase : Bool} {bytes : List Byte} (h : r.copy i n erase = some (r', bytes)) :
    Adds i r r' := by
  obtain ⟨-, h⟩ := Option.ite_none_right_eq_some.mp h
  obtain ⟨rfl, -⟩ := Prod.mk.inj (Option.some.inj h)
  cases erase with
  | false => exact (adds_lock i r).trans (adds_touchFifo i _)
  | true => exact ((adds_lock i r).trans (adds_touchFifo i _)).trans (adds_setFifo i _ _)

/-- A `read_byte` of a registered socket. -/
theorem adds_readByte {c : ReadCall} {n : Int} {bytes : List Byte} (hc : c.i ∈ r.clients)
    (h : r.readByte c = some (r', n, bytes)) : Adds c.i r r' := by
  rw [Registry.readByte, if_pos hc] at h
  dsimp only at h
  split at h
  · cases h
  obtain ⟨⟨r'', bytes'⟩, hcopy, heq⟩ := Option.map_eq_some_iff.mp h
  obtain ⟨rfl, -⟩ := Prod.mk.inj heq
  exact ((adds_sample c.i r).trans (adds_touchFifo c.i _)).trans (adds_copy hcopy)

end

namespace Session

variable {s t : Session} {as : List Op} {i : Socket}

/-- The keys of the three containers are the sockets of the running handlers. -/
structure Keys (s : Session) : Prop where
  clients : ∀ i, i ∈ s.reg.clients ↔ i ∈ s.handlers
  fifos : ∀ i, i ∈ s.reg.fifos ↔ i ∈ s.handlers
  mutexes : ∀ i, i ∈ s.reg.mutexes ↔ i ∈ s.handlers

/-- A set has no element twice. -/
structure Sets (s : Session) : Prop where
  clients : s.reg.clients.Nodup
  handlers : s.handlers.Nodup

/-- A `clear_fifo` is for a registered socket. -/
def ClearsKnown (s : Session) (a : Op) : Prop := ∀ i, a = .clearFifo i → i ∈ s.reg.clients

instance (s : Session) (a : Op) : Decidable (ClearsKnown s a) :=
  match a with
  | .clearFifo i => decidable_of_iff (i ∈ s.reg.clients) ⟨fun h _ he => by cases he; exact h, fun h => h i rfl⟩
  | .accept _ => isTrue nofun
  | .data _ _ => isTrue nofun
  | .disconnect _ => isTrue nofun
  | .readByte _ => isTrue nofun
  | .isAvailable _ => isTrue nofun
  | .sendData _ _ => isTrue nofun
  | .broadcast _ => isTrue nofun

/-- An operation on a registered socket. -/
theorem keys_of_adds (h : Keys s) (hi : i ∈ s.handlers) (hadds : Adds i s.reg t.reg) (hh : t.handlers = s.handlers) :
    Keys t := by
  refine ⟨fun j => ?_, fun j => ⟨fun hj => ?_, fun hj => ?_⟩, fun j => ⟨fun hj => ?_, fun hj => ?_⟩⟩
  · rw [hadds.clients, hh]
    exact h.clients j
  · rw [hh]
    rcases hadds.fifos j hj with rfl | hj
    · exact hi
    · exact (h.fifos j).mp hj
  · exact hadds.keepsFifos j ((h.fifos j).mpr (hh ▸ hj))
  · rw [hh]
    rcases hadds.mutexes j hj with rfl | hj
    · exact hi
    · exact (h.mutexes j).mp hj
  · exact hadds.keepsMutexes j ((h.mutexes j).mpr (hh ▸ hj))

theorem keys_register {fd : Socket} (h : Keys s) (hreg : t.reg = s.reg.register fd) (hh : t.handlers = fd :: s.handlers) :
    Keys t := by
  refine ⟨?_, ?_, ?_⟩
  · intro j
    rw [hreg, hh, List.mem_cons, ← h.clients j]
    exact List.mem_insert_iff
  · intro j
    rw [hreg, hh, List.mem_cons, ← h.fifos j]
    exact Registry.mem_fifos_setFifo _ _ _ _
  · intro j
    rw [hreg, hh, List.mem_cons, ← h.mutexes j]
    exact Registry.mem_mutexes_lock _ _ _

theorem keys_unregister {fd : Socket} (h : Keys s) (hsets : Sets s) (hreg : t.reg = s.reg.unregister fd)
    (hh : t.handlers = s.handlers.erase fd) : Keys t := by
  refine ⟨?_, ?_, ?_⟩
  · intro j
    rw [hreg, hh, hsets.handlers.mem_erase_iff, ← h.clients j]
    exact hsets.clients.mem_erase_iff
  · intro j
    rw [hreg, hh, hsets.handlers.mem_erase_iff, ← h.fifos j]
    exact AList.mem_erase
  · intro j
    rw [hreg, hh, hsets.handlers.mem_erase_iff, ← h.mutexes j]
    exact AList.mem_erase

/-- `m_clients` holds a socket once, so one `send` is made. -/
theorem sendData_eq (hsets : Sets s) (bytes : List Byte) (i : Socket) :
    s.sendData bytes i =
      if i ∈ s.reg.clients then { s with reg := s.reg.lock i, sent := s.sent ++ [(i, bytes)] } else s := by
  have hfold : ∀ (l : List Socket) (u : Session), l.Nodup → l.foldl (sendTo bytes i) u =
      if i ∈ l then { u with reg := u.reg.lock i, sent := u.sent ++ [(i, bytes)] } else u := by
    intro l
    induction l with
    | nil => exact fun _ _ => rfl
    | cons client l ih =>
      intro u hl
      obtain ⟨hnot, hl⟩ := List.nodup_cons.mp hl
      rw [List.foldl_cons, ih _ hl]
      by_cases e : client = i
      · subst e
        simp [sendTo, hnot]
      · have e' : i ≠ client := fun h => e h.symm
        simp [sendTo, e, e']
  exact hfold s.reg.clients s hsets.clients

/-! ## What an operation can do -/

inductive Step (s : Session) : Op → Session → Prop
  | accept (fd : Socket) : fd ∉ s.handlers →
      Step s (.accept fd) { s with reg := s.reg.register fd, handlers := fd :: s.handlers, joinable := fd :: s.joinable }
  | data (fd : Socket) (bytes : List Byte) : fd ∈ s.handlers →
      Step s (.data fd bytes) { s with reg := s.reg.append fd bytes }
  | disconnect (fd : Socket) : fd ∈ s.handlers →
      Step s (.disconnect fd) { s with reg := s.reg.unregister fd, handlers := s.handlers.erase fd }
  | readByte (c : ReadCall) (reg : Registry) : c.i ∈ s.reg.clients → Adds c.i s.reg reg →
      Step s (.readByte c) { s with reg := reg }
  | readByteUnknown (c : ReadCall) : Step s (.readByte c) s
  | clearFifo (i : Socket) : Step s (.clearFifo i) { s with reg := s.reg.clearFifo i }
  | isAvailable (i : Socket) : i ∈ s.reg.clients → Step s (.isAvailable i) { s with reg := (s.reg.sample i).1 }
  | isAvailableUnknown (i : Socket) : Step s (.isAvailable i) s
  | sendData (bytes : List Byte) (i : Socket) : i ∈ s.reg.clients →
      Step s (.sendData bytes i) { s with reg := s.reg.lock i, sent := s.sent ++ [(i, bytes)] }
  | sendDataUnknown (bytes : List Byte) (i : Socket) : i ∉ s.reg.clients → Step s (.sendData bytes i) s
  | broadcast (bytes : List Byte) : Step s (.broadcast bytes) s

theorem step_cases {a : Op} (hsets : Sets s) (h : s.step a = some t) : Step s a t := by
  cases a with
  | accept fd =>
    obtain ⟨hnot, h⟩ := Option.ite_none_left_eq_some.mp h
    cases h
    exact .accept fd fun hfd => hnot (Or.inl hfd)
  | data fd bytes =>
    obtain ⟨hfd, h⟩ := Option.ite_none_right_eq_some.mp h
    cases h
    exact .data fd bytes hfd.1
  | disconnect fd =>
    obtain ⟨hfd, h⟩ := Option.ite_none_right_eq_some.mp h
    cases h
    exact .disconnect fd hfd
  | readByte c =>
    obtain ⟨⟨reg, n, bytes⟩, hread, rfl⟩ := Option.map_eq_some_iff.mp h
    by_cases hc : c.i ∈ s.reg.clients
    · exact .readByte c reg hc (adds_readByte hc hread)
    · rw [Registry.readByte, if_neg hc] at hread
      cases hread
      exact .readByteUnknown c
  | clearFifo i =>
    cases h
    exact .clearFifo i
  | isAvailable i =>
    cases h
    by_cases hi : i ∈ s.reg.clients
    · rw [Registry.isAvailable, if_pos hi]
      exact .isAvailable i hi
    · rw [Registry.isAvailable, if_neg hi]
      exact .isAvailableUnknown i
  | sendData bytes i =>
    simp only [step, sendData_eq hsets] at h
    split at h
    · rename_i hi
      cases h
      exact .sendData bytes i hi
    · rename_i hi
      cases h
      exact .sendDataUnknown bytes i hi
  | broadcast bytes =>
    cases h
    exact .broadcast bytes

theorem sets_step {a : Op} (h : Sets s) (hs : s.step a = some t) : Sets t := by
  cases step_cases h hs with
  | accept fd hfd => exact ⟨h.clients.insert, List.nodup_cons.mpr ⟨hfd, h.handlers⟩⟩
  | disconnect fd hfd => exact ⟨h.clients.erase fd, h.handlers.erase fd⟩
  | readByte c reg hc hadds =>
    refine ⟨?_, h.handlers⟩
    rw [hadds.clients]
    exact h.clients
  | isAvailable i hi =>
    refine ⟨?_, h.handlers⟩
    rw [(adds_sample i s.reg).clients]
    exact h.clients
  | data fd bytes hfd => exact ⟨h.clients, h.handlers⟩
  | readByteUnknown c => exact h
  | clearFifo i => exact ⟨h.clients, h.handlers⟩
  | isAvailableUnknown i => exact h
  | sendData bytes i hi => exact ⟨h.clients, h.handlers⟩
  | sendDataUnknown bytes i hi => exact h
  | broadcast bytes => exact h

/-! ## The registry -/

/-- Of all operations only `clear_fifo` can upset the keys, and it does unless the socket is
    registered. -/
theorem keys_step {a : Op} (hsets : Sets s) (h : Keys s) (hs : s.step a = some t) : Keys t ↔ ClearsKnown s a := by
  cases step_cases hsets hs with
  | clearFifo i =>
    constructor
    · intro ht j hj
      cases hj
      have hmem : i ∈ (s.reg.clearFifo i).fifos := (Registry.mem_fifos_setFifo _ _ _ _).mpr (Or.inl rfl)
      exact (h.clients i).mpr ((ht.fifos i).mp hmem)
    · intro hok
      exact keys_of_adds h ((h.clients i).mp (hok i rfl)) (adds_clearFifo i s.reg) rfl
  | accept fd hfd => exact ⟨fun _ => nofun, fun _ => keys_register h rfl rfl⟩
  | disconnect fd hfd => exact ⟨fun _ => nofun, fun _ => keys_unregister h hsets rfl rfl⟩
  | data fd bytes hfd => exact ⟨fun _ => nofun, fun _ => keys_of_adds h hfd (adds_append fd s.reg bytes) rfl⟩
  | readByte c reg hc hadds => exact ⟨fun _ => nofun, fun _ => keys_of_adds h ((h.clients c.i).mp hc) hadds rfl⟩
  | isAvailable i hi => exact ⟨fun _ => nofun, fun _ => keys_of_adds h ((h.clients i).mp hi) (adds_sample i s.reg) rfl⟩
  | sendData bytes i hi => exact ⟨fun _ => nofun, fun _ => keys_of_adds h ((h.clients i).mp hi) (adds_lock i s.reg) rfl⟩
  | readByteUnknown c => exact ⟨fun _ => nofun, fun _ => h⟩
  | isAvailableUnknown i => exact ⟨fun _ => nofun, fun _ => h⟩
  | sendDataUnknown bytes i hi => exact ⟨fun _ => nofun, fun _ => h⟩
  | broadcast bytes => exact ⟨fun _ => nofun, fun _ => h⟩

theorem sets_new : Sets new := ⟨List.nodup_nil, List.nodup_nil⟩

theorem keys_new : Keys new where
  clients _ := Iff.rfl
  fifos i := by simp [new, Registry.empty]
  mutexes i := by simp [new, Registry.empty]

/-- In every run: the keys of the three containers are the sockets of the running handlers
    in each state if and only if each `clear_fifo` was called for a registered socket. -/
theorem keys_agree_iff_clears_known (hrun : run step new as = some t) :
    Always step Keys new as ↔ Meets step ClearsKnown new as :=
  always_iff_meets (fun _ _ _ => sets_step) (fun _ _ _ => keys_step) keys_new sets_new hrun

def aClientIsCleared : List Op :=
  [.accept 4, .data 4 [1, 2], .readByte ⟨9, 1, false, true⟩, .readByte ⟨4, 1, false, true⟩, .sendData [3] 9, .clearFifo 4,
    .disconnect 4, .isAvailable 4]

theorem keys_agree_when_a_client_is_cleared :
    ∃ t, run step new aClientIsCleared = some t ∧ Meets step ClearsKnown new aClientIsCleared ∧
      (Always step Keys new aClientIsCleared ↔ Meets step ClearsKnown new aClientIsCleared) := by
  have hsome : (run step new aClientIsCleared).isSome = true := by decide +kernel
  obtain ⟨t, ht⟩ := Option.isSome_iff_exists.mp hsome
  exact ⟨t, ht, by decide +kernel, keys_agree_iff_clears_known ht⟩

/-- A `clear_fifo` after the client has gone puts its keys back. -/
theorem clear_of_a_stranger_leaves_keys :
    ∃ t, run step new [.accept 4, .disconnect 4, .clearFifo 4] = some t ∧ t.handlers = [] ∧ t.reg.fifos.keys = [4] ∧
      t.reg.mutexes.keys = [4] ∧ ¬ Keys t := by
  have hrun : (run step new [.accept 4, .disconnect 4, .clearFifo 4]).map
      (fun t => (t.handlers, t.reg.fifos.keys, t.reg.mutexes.keys)) = some ([], [4], [4]) := by decide +kernel
  obtain ⟨t, ht, heq⟩ := Option.map_eq_some_iff.mp hrun
  simp only [Prod.mk.injEq] at heq
  obtain ⟨hh, hf, hm⟩ := heq
  refine ⟨t, ht, hh, hf, hm, ?_⟩
  intro hkeys
  have hmem : (4 : Socket) ∈ t.handlers := by
    refine (hkeys.fifos 4).mp (AList.mem_keys.mpr ?_)
    rw [hf]
    exact List.mem_cons_self
  rw [hh] at hmem
  cases hmem

/-! ## What each client is sent -/

/-- The bytes that `send` was given for the client. -/
def sentTo (i : Socket) (sent : List (Socket × List Byte)) : List Byte :=
  sent.flatMap fun m => if m.1 = i then m.2 else []

/-- What a call owes the client: a `send_data` addressed to it or a `broadcast`, made while
    it is registered. -/
def owes (i : Socket) (s : Session) : Op → List Byte
  | .sendData bytes j => if j = i ∧ i ∈ s.reg.clients then bytes else []
  | .broadcast bytes => if i ∈ s.reg.clients then bytes else []
  | _ => []

/-- What the calls of a run owe the client, in call order. -/
def due (i : Socket) : Session → List Op → List Byte
  | _, [] => []
  | s, a :: as =>
    owes i s a ++
      match step s a with
      | some t => due i t as
      | none => []

/-- A `broadcast` has nothing to say, or nobody is there. -/
def NothingToBroadcast (s : Session) (a : Op) : Prop := ∀ bytes, a = .broadcast bytes → s.reg.clients ≠ [] → bytes = []

instance (s : Session) (a : Op) : Decidable (NothingToBroadcast s a) :=
  match a with
  | .broadcast bytes =>
    decidable_of_iff (s.reg.clients ≠ [] → bytes = [])
      ⟨fun h _ he => by cases he; exact h, fun h => h bytes rfl⟩
  | .accept _ => isTrue nofun
  | .data _ _ => isTrue nofun
  | .disconnect _ => isTrue nofun
  | .readByte _ => isTrue nofun
  | .clearFifo _ => isTrue nofun
  | .isAvailable _ => isTrue nofun
  | .sendData _ _ => isTrue nofun

theorem sentTo_snoc (i j : Socket) (bytes : List Byte) (l : List (Socket × List Byte)) :
    sentTo i (l ++ [(j, bytes)]) = sentTo i l ++ if j = i then bytes else [] := by
  simp [sentTo]

/-- A step sends what it owes, but for a `broadcast`, which sends nothing. -/
theorem sentTo_step {a : Op} (hsets : Sets s) (hs : s.step a = some t) (i : Socket) :
    (sentTo i t.sent = sentTo i s.sent ++ owes i s a ∧ ∀ bytes, a ≠ .broadcast bytes) ∨
      ∃ bytes, a = .broadcast bytes ∧ t = s := by
  cases step_cases hsets hs with
  | sendData bytes j hj =>
    refine Or.inl ⟨?_, nofun⟩
    show sentTo i (s.sent ++ [(j, bytes)]) = _
    rw [sentTo_snoc]
    by_cases e : j = i
    · subst e
      simp [owes, hj]
    · simp [owes, e]
  | sendDataUnknown bytes j hj =>
    refine Or.inl ⟨?_, nofun⟩
    have hnot : ¬ (j = i ∧ i ∈ s.reg.clients) := by
      rintro ⟨rfl, hi⟩
      exact hj hi
    rw [owes, if_neg hnot, List.append_nil]
  | broadcast bytes => exact Or.inr ⟨bytes, rfl, rfl⟩
  | accept fd hfd => exact Or.inl ⟨(List.append_nil _).symm, nofun⟩
  | data fd bytes hfd => exact Or.inl ⟨(List.append_nil _).symm, nofun⟩
  | disconnect fd hfd => exact Or.inl ⟨(List.append_nil _).symm, nofun⟩
  | readByte c reg hc hadds => exact Or.inl ⟨(List.append_nil _).symm, nofun⟩
  | readByteUnknown c => exact Or.inl ⟨(List.append_nil _).symm, nofun⟩
  | clearFifo j => exact Or.inl ⟨(List.append_nil _).symm, nofun⟩
  | isAvailable j hj => exact Or.inl ⟨(List.append_nil _).symm, nofun⟩
  | isAvailableUnknown j => exact Or.inl ⟨(List.append_nil _).symm, nofun⟩

theorem due_cons {a : Op} (hs : s.step a = some t) (i : Socket) : due i s (a :: as) = owes i s a ++ due i t as := by
  simp only [due, hs]

/-- No client is sent more than it is owed. -/
theorem sent_le_due (hsets : Sets s) (hrun : run step s as = some t) (i : Socket) :
    (sentTo i t.sent).length ≤ (sentTo i s.sent).length + (due i s as).length := by
  induction as generalizing s with
  | nil =>
    cases hrun
    exact Nat.le_add_right _ _
  | cons a as ih =>
    obtain ⟨m, hm, hrun⟩ := run_cons.mp hrun
    have hle := ih (sets_step hsets hm) hrun
    rw [due_cons hm, List.length_append]
    rcases sentTo_step hsets hm i with ⟨hsent, -⟩ | ⟨bytes, -, rfl⟩
    · rw [hsent, List.length_append] at hle
      omega
    · omega

theorem all_due_sent (hsets : Sets s) (hrun : run step s as = some t) (hok : Meets step NothingToBroadcast s as)
    (i : Socket) : sentTo i t.sent = sentTo i s.sent ++ due i s as := by
  induction as generalizing s with
  | nil =>
    cases hrun
    exact (List.append_nil _).symm
  | cons a as ih =>
    obtain ⟨m, hm, hrun⟩ := run_cons.mp hrun
    rw [ih (sets_step hsets hm) hrun (hok.2 m hm), due_cons hm, ← List.append_assoc]
    refine congrArg (· ++ due i m as) ?_
    rcases sentTo_step hsets hm i with ⟨hsent, -⟩ | ⟨bytes, rfl, rfl⟩
    · exact hsent
    · by_cases hi : i ∈ m.reg.clients
      · have hempty := hok.1 bytes rfl (List.ne_nil_of_mem hi)
        subst hempty
        simp [owes]
      · simp [owes, hi]

/-- What a `broadcast` owes is never made up for. -/
theorem nothing_of_all_due_sent (hsets : Sets s) (hrun : run step s as = some t)
    (hall : ∀ i, (sentTo i t.sent).length = (sentTo i s.sent).length + (due i s as).length) :
    Meets step NothingToBroadcast s as := by
  induction as generalizing s with
  | nil => trivial
  | cons a as ih =>
    obtain ⟨m, hm, hrun⟩ := run_cons.mp hrun
    have hsets' := sets_step hsets hm
    have hlen : ∀ i, (sentTo i t.sent).length = (sentTo i m.sent).length + (due i m as).length := by
      intro i
      have hle := sent_le_due hsets' hrun i
      have heq := hall i
      rw [due_cons hm, List.length_append] at heq
      rcases sentTo_step hsets hm i with ⟨hsent, -⟩ | ⟨bytes, -, rfl⟩
      · rw [hsent, List.length_append]
        omega
      · omega
    refine (meets_cons hm).mpr ⟨?_, ih hsets' hrun hlen⟩
    intro bytes ha hne
    subst ha
    obtain ⟨i, hi⟩ := List.exists_mem_of_ne_nil _ hne
    have heq := hall i
    rw [due_cons hm, List.length_append, owes, if_pos hi] at heq
    rcases sentTo_step hsets hm i with ⟨-, hnot⟩ | ⟨_, -, rfl⟩
    · exact absurd rfl (hnot bytes)
    · have hlen := hlen i
      exact List.eq_nil_of_length_eq_zero (by omega)

/-- In every run: each client is sent exactly the bytes of the `send_data` calls addressed to
    it and of the `broadcast` calls made while it was registered, in call order, if and only
    if no `broadcast` had bytes while there was a client. -/
theorem all_due_sent_iff_no_broadcast (hrun : run step new as = some t) :
    (∀ i, sentTo i t.sent = due i new as) ↔ Meets step NothingToBroadcast new as := by
  refine ⟨?_, fun hok i => all_due_sent sets_new hrun hok i⟩
  intro hall
  refine nothing_of_all_due_sent sets_new hrun ?_
  intro i
  rw [hall i]
  exact (Nat.zero_add _).symm

def twoClients : List Op := [.accept 4, .sendData [1] 4, .accept 5, .sendData [2] 5, .sendData [3] 4, .disconnect 5]

theorem all_due_sent_to_two_clients :
    ∃ t, run step new twoClients = some t ∧ sentTo 4 t.sent = [1, 3] ∧
      ((∀ i, sentTo i t.sent = due i new twoClients) ↔ Meets step NothingToBroadcast new twoClients) := by
  have hrun : (run step new twoClients).map (fun t => sentTo 4 t.sent) = some [1, 3] := by decide +kernel
  obtain ⟨t, ht, hsent⟩ := Option.map_eq_some_iff.mp hrun
  exact ⟨t, ht, hsent, all_due_sent_iff_no_broadcast ht⟩

/-- Two clients are registered, and neither gets the byte. -/
theorem a_broadcast_reaches_nobody :
    (run step new [.accept 4, .accept 5, .broadcast [7]]).map (fun t => (t.reg.clients, sentTo 4 t.sent, sentTo 5 t.sent)) =
        some ([5, 4], [], []) ∧
      due 4 new [.accept 4, .accept 5, .broadcast [7]] = [7] := by
  refine ⟨by decide +kernel, by decide +kernel⟩

end Session

/-! ## Each operation is a run of its thread -/

namespace TCPServer

variable {s : TCPServer}

/-- The accept thread registers a connection. -/
theorem accept_is_a_run {fd : Nat} (hf : s.fault = none) (hpc : s.accept = .accept) (hfree : s.LowestFree fd)
    (hnone : ∀ old, ¬ s.Joinable fd old) :
    ∃ t, run step s (.accept (.connection fd) :: List.replicate 5 (.accept .go)) = some t ∧
      t.reg = s.reg.register fd ∧ t.handlers s.next = some ⟨fd, .check⟩ ∧ t.Joinable fd s.next := by
  simp only [List.replicate, run, step, acceptStep, hf, hpc, hfree, setHandler, setSocket, Registry.register,
    Option.isSome_none, Bool.false_eq_true, if_false, and_self, if_true, Option.bind_some]
  split
  · rename_i old hold
    exact absurd hold (hnone old)
  · exact ⟨_, rfl, rfl, upd_same _ _ _, AList.lookup_insert _⟩

/-- A handler that has left its loop cleans up. -/
theorem disconnect_is_a_run {tid : Tid} {fd : Socket} (hf : s.fault = none) (hh : s.handlers tid = some ⟨fd, .close⟩) :
    ∃ t, run step s (List.replicate 4 (.handler tid .go)) = some t ∧ t.reg = s.reg.unregister fd ∧
      t.handlers tid = some ⟨fd, .done⟩ := by
  simp [run, step, handlerStep, hf, hh, setHandler, setSocket, Registry.unregister]

/-- A `read_byte` that does not have to wait. -/
theorem readByte_is_a_run {u : Tid} {c : ReadCall} {reg : Registry} {n : Int} {bytes : List Byte} (hf : s.fault = none)
    (hu : s.users u = .idle) (hc : c.i ∈ s.reg.clients) (h : s.reg.readByte c = some (reg, n, bytes)) :
    ∃ t, run step s (.user u (.read c) :: List.replicate 3 (.user u .go)) = some t ∧ t.reg = reg ∧
      t.history = s.history ++ [.read c bytes] := by
  rw [Registry.readByte, if_pos hc] at h
  dsimp only at h
  split at h
  · cases h
  rename_i hgo
  obtain ⟨⟨reg', bytes'⟩, hcopy, heq⟩ := Option.map_eq_some_iff.mp h
  simp only [Prod.mk.injEq] at heq
  obtain ⟨rfl, -, rfl⟩ := heq
  simp [run, step, userStep, hf, hu, hc, hgo, hcopy, setUser, log]

theorem isAvailable_is_a_run {u : Tid} {i : Socket} (hf : s.fault = none) (hu : s.users u = .idle)
    (hi : i ∈ s.reg.clients) :
    ∃ t, run step s [.user u (.available i), .user u .go] = some t ∧ t.reg = (s.reg.isAvailable i).1 := by
  simp [run, step, userStep, hf, hu, hi, setUser, log, Registry.isAvailable]

end TCPServer

end ComClient.Server
