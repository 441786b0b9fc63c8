/-
  ComClient.Server.Broadcast — `UDPServer::broadcast` (`src/include/udp_client.hpp`), called
  by any number of threads, among other threads of the process that open and close
  descriptors.

  Every call makes a socket, sends from it and closes it, also where a system call fails.
  A system call knows a socket by its number only: it acts on what has the number by then,
  and a number that was closed is given out again. `owner` of a socket is the call that made
  it, which no system call looks at; the sockets of a server and of its clients have none.

  - `broadcasts_keep_apart`: in any interleaving, a call in flight has the one socket that
    it made and a call that has ended has none; a call that returns has sent its buffer
    once, from its own socket, and one that throws never; nobody else's socket is touched.
-/

import ComClient.Server.Lifecycle
import ComClient.Transport.Code

namespace ComClient.Lifecycle

open ComClient.Lts ComClient.Transport
open ComClient.Server (Errno)

namespace Broadcast

structure Sock where
  owner : Option Nat
  /-- `SO_BROADCAST` -/
  broadcast : Bool
  deriving DecidableEq, Repr

/-- Where a call is: before the system call, or at its end with what it throws. -/
inductive Pc where
  | socket
  | setsockopt (fd : Nat)
  | sendto (fd : Nat)
  | closesocket (fd : Nat) (thrown : Option Thrown)
  | ended (thrown : Option Thrown)
  deriving DecidableEq, Repr

structure Call where
  /-- `m_port` -/
  port : Int
  buffer : List Byte
  pc : Pc
  deriving DecidableEq, Repr

/-- A datagram that has gone out: who sent it, and the owner of the socket. -/
structure Sent where
  caller : Nat
  owner : Option Nat
  dst : SockAddr
  payload : List Byte
  deriving DecidableEq, Repr

structure Host where
  table : Nat → Option Sock
  calls : Nat → Option Call
  sent : List Sent

/-- What a system call returns. -/
inductive Answer where
  | socket (fd : Option Nat)
  | result (error : Option Errno)
  deriving DecidableEq, Repr

inductive Act where
  | call (id : Nat) (port : Int) (buffer : List Byte)
  | thread (id : Nat) (a : Answer)
  /-- Another thread opens a descriptor. -/
  | opens (fd : Nat) (broadcast : Bool)
  /-- Another thread closes one that such a thread has opened. -/
  | closes (fd : Nat)
  deriving DecidableEq, Repr

def INADDR_BROADCAST : BitVec 32 := 0xffffffff

def Call.address (c : Call) : SockAddr := ⟨INADDR_BROADCAST, .ofInt 16 c.port⟩

def Pc.holds : Pc → Option Nat
  | .setsockopt fd | .sendto fd | .closesocket fd _ => some fd
  | .socket | .ended _ => none

namespace Host

def put (s : Host) (fd : Nat) (sock : Option Sock) : Host := { s with table := Function.update s.table fd sock }

def goto (s : Host) (id : Nat) (c : Call) (pc : Pc) : Host :=
  { s with calls := Function.update s.calls id (some { c with pc := pc }) }

def out (s : Host) (d : Sent) : Host := { s with sent := s.sent ++ [d] }

/-- `UDPServer::broadcast` goes on with the answer of the system call it is at. -/
def next (s : Host) (id : Nat) (c : Call) : Answer → Option Host
  | .socket answer =>
    match c.pc, answer with
    | .socket, none => some (s.goto id c (.ended (some (.logError "Failed to create broadcast socket"))))
    | .socket, some fd =>
      if s.table fd = none then some ((s.put fd (some ⟨some id, false⟩)).goto id c (.setsockopt fd)) else none
    | _, _ => none
  | .result answer =>
    match c.pc, answer with
    | .setsockopt fd, some _ =>
      some (s.goto id c (.closesocket fd (some (.logError "Failed to enable broadcast on socket"))))
    | .setsockopt fd, none =>
      (s.table fd).map fun sock => (s.put fd (some { sock with broadcast := true })).goto id c (.sendto fd)
    | .sendto fd, some _ => some (s.goto id c (.closesocket fd (some (.logError "Failed to broadcast data"))))
    | .sendto fd, none =>
      (s.table fd).bind fun sock =>
        -- Without `SO_BROADCAST` the kernel refuses the address.
        if sock.broadcast then
          some ((s.out ⟨id, sock.owner, c.address, c.buffer⟩).goto id c (.closesocket fd none))
        else none
    | .closesocket fd thrown, _ => some ((s.put fd none).goto id c (.ended thrown))
    | _, _ => none

def step (s : Host) : Act → Option Host
  | .call id port buffer => if s.calls id = none then some (s.goto id ⟨port, buffer, .socket⟩ .socket) else none
  | .thread id a => (s.calls id).bind fun c => s.next id c a
  | .opens fd broadcast => if s.table fd = none then some (s.put fd (some ⟨none, broadcast⟩)) else none
  | .closes fd => if (s.table fd).map (·.owner) = some none then some (s.put fd none) else none

/-- No call has been made. -/
structure Started (s : Host) : Prop where
  calls : ∀ id, s.calls id = none
  owner : ∀ fd id, (s.table fd).map (·.owner) ≠ some (some id)
  sent : s.sent = []

/-- The descriptor that the call has made and not closed. -/
def held (s : Host) (id : Nat) : Option Nat := (s.calls id).bind fun c => c.pc.holds

/-- What the call has sent. -/
def due (id : Nat) (c : Call) : List Sent :=
  match c.pc with
  | .closesocket _ none | .ended none => [⟨id, some id, c.address, c.buffer⟩]
  | _ => []

structure Inv (s : Host) : Prop where
  own : ∀ fd id, (s.table fd).map (·.owner) = some (some id) ↔ s.held id = some fd
  enabled : ∀ id c fd, s.calls id = some c → c.pc = .sendto fd → s.table fd = some ⟨some id, true⟩
  sent : ∀ id, s.sent.filter (·.caller = id) = (s.calls id).elim [] (due id)

variable {s t : Host} {as : List Act} {id : Nat} {c : Call}

theorem inv_started (h : Started s) : Inv s := by
  refine ⟨?_, ?_, ?_⟩
  · intro fd id
    simp [h.owner, held, h.calls]
  · intro id c fd hc
    rw [h.calls] at hc
    cases hc
  · intro id
    rw [h.sent, h.calls]
    rfl

/-! ## One step -/

@[simp] theorem goto_calls_self {pc : Pc} : (s.goto id c pc).calls id = some { c with pc := pc } := Function.update_self ..

@[simp] theorem goto_calls_other {pc : Pc} {id' : Nat} (h : id' ≠ id) : (s.goto id c pc).calls id' = s.calls id' :=
  Function.update_of_ne h ..

@[simp] theorem put_self {fd : Nat} {sock : Option Sock} : (s.put fd sock).table fd = sock := Function.update_self ..

@[simp] theorem put_other {fd fd' : Nat} {sock : Option Sock} (h : fd' ≠ fd) : (s.put fd sock).table fd' = s.table fd' :=
  Function.update_of_ne h ..

/-- What a call does when it goes on to `pc`: only its own socket changes, and only its own
    datagrams are added. -/
structure Moves (s : Host) (id : Nat) (c : Call) (pc : Pc) (t : Host) : Prop where
  self : t.calls id = some { c with pc := pc }
  others : ∀ id', id' ≠ id → t.calls id' = s.calls id'
  own : ∀ fd, (t.table fd).map (·.owner) = some (some id) ↔ pc.holds = some fd
  foreign : ∀ fd sock, sock.owner ≠ some id → (t.table fd = some sock ↔ s.table fd = some sock)
  enabled : ∀ fd, pc = .sendto fd → t.table fd = some ⟨some id, true⟩
  sent : t.sent.filter (·.caller = id) = due id { c with pc := pc }
  unsent : ∀ id', id' ≠ id → t.sent.filter (·.caller = id') = s.sent.filter (·.caller = id')

/-- The owners of the other calls' sockets are what they were. -/
theorem Moves.owner {pc : Pc} (h : Moves s id c pc t) {fd id' : Nat} (hid : id' ≠ id) :
    (t.table fd).map (·.owner) = some (some id') ↔ (s.table fd).map (·.owner) = some (some id') := by
  have hne : ∀ sock : Sock, sock.owner = some id' → sock.owner ≠ some id := by
    intro sock howner hown
    exact hid (Option.some.inj (howner.symm.trans hown))
  simp only [Option.map_eq_some_iff]
  constructor
  · intro hsock
    obtain ⟨sock, hsock, howner⟩ := hsock
    exact ⟨sock, (h.foreign fd sock (hne sock howner)).mp hsock, howner⟩
  · intro hsock
    obtain ⟨sock, hsock, howner⟩ := hsock
    exact ⟨sock, (h.foreign fd sock (hne sock howner)).mpr hsock, howner⟩

theorem inv_moves {pc : Pc} (h : Inv s) (hmoves : Moves s id c pc t) : Inv t := by
  refine ⟨?_, ?_, ?_⟩
  · intro fd id'
    by_cases hid : id' = id
    · subst hid
      rw [hmoves.own, held, hmoves.self]
      rfl
    · rw [hmoves.owner hid, h.own, held, held, hmoves.others id' hid]
  · intro id' c' fd hc' hpc
    by_cases hid : id' = id
    · subst hid
      cases hmoves.self.symm.trans hc'
      exact hmoves.enabled fd hpc
    · rw [hmoves.others id' hid] at hc'
      refine (hmoves.foreign fd _ ?_).mpr (h.enabled id' c' fd hc' hpc)
      intro hown
      exact hid (Option.some.inj hown)
  · intro id'
    by_cases hid : id' = id
    · subst hid
      rw [hmoves.sent, hmoves.self]
      rfl
    · rw [hmoves.unsent id' hid, hmoves.others id' hid]
      exact h.sent id'

theorem held_of {pc : Pc} {port : Int} {buffer : List Byte} (hc : s.calls id = some ⟨port, buffer, pc⟩) :
    s.held id = pc.holds := by
  rw [held, hc]
  rfl

/-- The call only goes on, or begins: it has the same socket as before and sends nothing. -/
theorem moves_goto {pc : Pc} (h : Inv s) (hheld : s.held id = pc.holds) (hsendto : ∀ fd, pc ≠ .sendto fd)
    (hdue : (s.calls id).elim [] (due id) = due id { c with pc := pc }) : Moves s id c pc (s.goto id c pc) := by
  refine ⟨goto_calls_self, fun id' hid => goto_calls_other hid, ?_, fun fd sock _ => Iff.rfl, ?_, ?_, fun id' _ => rfl⟩
  · intro fd
    show (s.table fd).map (·.owner) = some (some id) ↔ _
    rw [h.own, hheld]
  · intro fd hpc
    exact absurd hpc (hsendto fd)
  · show s.sent.filter (·.caller = id) = _
    rw [h.sent, hdue]

/-- The call puts something else in the place of its own descriptor, or of a free one. -/
theorem moves_put {fd : Nat} {sock : Option Sock} {pc : Pc} (h : Inv s) (hheld : s.held id = none ∨ s.held id = some fd)
    (hbefore : ∀ sock', s.table fd = some sock' → sock'.owner = some id)
    (hafter : ∀ sock', sock = some sock' → sock'.owner = some id ∧ pc.holds = some fd)
    (hnone : sock = none → pc.holds = none)
    (hsendto : ∀ fd', pc = .sendto fd' → fd' = fd ∧ sock = some ⟨some id, true⟩)
    (hdue : (s.calls id).elim [] (due id) = due id { c with pc := pc }) :
    Moves s id c pc ((s.put fd sock).goto id c pc) := by
  refine ⟨goto_calls_self, fun id' hid => goto_calls_other hid, ?_, ?_, ?_, ?_, fun id' _ => rfl⟩
  · intro fd'
    show ((s.put fd sock).table fd').map (·.owner) = some (some id) ↔ _
    by_cases hfd : fd' = fd
    · subst hfd
      rw [put_self]
      cases hsock : sock with
      | none => simp [hnone hsock]
      | some sock' => simp [(hafter sock' hsock).1, (hafter sock' hsock).2]
    · rw [put_other hfd, h.own]
      have hne : ∀ o : Option Nat, o = none ∨ o = some fd → o ≠ some fd' := by
        intro o ho heq
        rcases ho with ho | ho
        · cases ho.symm.trans heq
        · exact hfd (Option.some.inj (heq.symm.trans ho))
      have hpc : pc.holds = none ∨ pc.holds = some fd := by
        cases hsock : sock with
        | none => exact Or.inl (hnone hsock)
        | some sock' => exact Or.inr (hafter sock' hsock).2
      exact iff_of_false (hne _ hheld) (hne _ hpc)
  · intro fd' sock' howner
    show (s.put fd sock).table fd' = some sock' ↔ _
    by_cases hfd : fd' = fd
    · subst hfd
      rw [put_self]
      exact iff_of_false (fun heq => howner (hafter sock' heq).1) (fun heq => howner (hbefore sock' heq))
    · rw [put_other hfd]
  · intro fd' hpc
    obtain ⟨rfl, hsock⟩ := hsendto fd' hpc
    exact put_self.trans hsock
  · show s.sent.filter (·.caller = id) = _
    rw [h.sent, hdue]

theorem next_moves {a : Answer} (h : Inv s) (hc : s.calls id = some c) (hnext : s.next id c a = some t) :
    ∃ pc, Moves s id c pc t := by
  obtain ⟨port, buffer, pc⟩ := c
  have hdue : (s.calls id).elim [] (due id) = due id ⟨port, buffer, pc⟩ := by
    rw [hc]
    rfl
  have hheld := held_of hc
  have hown : ∀ fd, Pc.holds pc = some fd → ∀ sock, s.table fd = some sock → sock.owner = some id := by
    intro fd hfd sock hsock
    have howner := (h.own fd id).mpr (hheld.trans hfd)
    rw [hsock] at howner
    exact Option.some.inj howner
  cases a with
  | socket answer =>
    cases pc with
    | socket =>
      cases answer with
      | none =>
        cases hnext
        exact ⟨_, moves_goto h hheld nofun hdue⟩
      | some fd =>
        obtain ⟨hfree, hnext⟩ := Option.ite_none_right_eq_some.mp hnext
        cases hnext
        refine ⟨_, moves_put h (Or.inl hheld) ?_ ?_ nofun nofun hdue⟩
        · intro sock hsock
          rw [hfree] at hsock
          cases hsock
        · intro sock hsock
          cases hsock
          exact ⟨rfl, rfl⟩
    | _ => cases answer <;> cases hnext
  | result answer =>
    cases pc with
    | setsockopt fd =>
      cases answer with
      | some e =>
        cases hnext
        exact ⟨_, moves_goto h hheld nofun hdue⟩
      | none =>
        obtain ⟨sock, hsock, hnext⟩ := Option.map_eq_some_iff.mp hnext
        cases hnext
        have howner := hown fd rfl sock hsock
        refine ⟨_, moves_put h (Or.inr hheld) (hown fd rfl) ?_ nofun ?_ hdue⟩
        · intro sock' hsock'
          cases hsock'
          exact ⟨howner, rfl⟩
        · intro fd' hpc
          cases hpc
          exact ⟨rfl, by rw [howner]⟩
    | sendto fd =>
      cases answer with
      | some e =>
        cases hnext
        exact ⟨_, moves_goto h hheld nofun hdue⟩
      | none =>
        obtain ⟨sock, hsock, hnext⟩ := Option.bind_eq_some_iff.mp hnext
        obtain ⟨-, hnext⟩ := Option.ite_none_right_eq_some.mp hnext
        cases hnext
        have hunsent : s.sent.filter (·.caller = id) = [] := by
          rw [h.sent, hc]
          rfl
        refine ⟨.closesocket fd none, goto_calls_self, fun id' hid => goto_calls_other hid, ?_, fun fd' sock' _ => Iff.rfl,
          nofun, ?_, ?_⟩
        · intro fd'
          show (s.table fd').map (·.owner) = some (some id) ↔ _
          rw [h.own, held, hc]
          rfl
        · simp only [goto, out, List.filter_append, hunsent, hown fd rfl sock hsock]
          simp [due, Call.address]
        · intro id' hid
          simp only [goto, out, List.filter_append]
          simp [hid.symm]
    | closesocket fd thrown =>
      have hnext : some ((s.put fd none).goto id ⟨port, buffer, .closesocket fd thrown⟩ (.ended thrown)) = some t := by
        cases answer <;> exact hnext
      cases hnext
      refine ⟨_, moves_put h (Or.inr hheld) (hown fd rfl) nofun (fun _ => rfl) nofun (hdue.trans ?_)⟩
      cases thrown <;> rfl
    | _ => cases answer <;> cases hnext

/-- Another thread opens or closes a descriptor: no call has it, before or after. -/
theorem inv_put {fd : Nat} {sock : Option Sock} (h : Inv s) (hbefore : ∀ id, (s.table fd).map (·.owner) ≠ some (some id))
    (hafter : ∀ id, sock.map (·.owner) ≠ some (some id)) : Inv (s.put fd sock) := by
  have hheld : ∀ id, s.held id ≠ some fd := fun id hid => hbefore id ((h.own fd id).mpr hid)
  refine ⟨?_, ?_, h.sent⟩
  · intro fd' id
    by_cases hfd : fd' = fd
    · subst hfd
      rw [put_self]
      exact iff_of_false (hafter id) (hheld id)
    · rw [put_other hfd]
      exact h.own fd' id
  · intro id c fd' hc hpc
    have hfd : fd' ≠ fd := by
      intro heq
      subst heq
      have hsock := h.enabled id c fd' hc hpc
      exact hbefore id (by rw [hsock]; rfl)
    rw [put_other hfd]
    exact h.enabled id c fd' hc hpc

theorem inv_step {a : Act} (h : Inv s) (hs : s.step a = some t) : Inv t := by
  cases a with
  | call id port buffer =>
    obtain ⟨hnew, hs⟩ := Option.ite_none_right_eq_some.mp hs
    cases hs
    refine inv_moves h (moves_goto h ?_ nofun ?_)
    · rw [held, hnew]
      rfl
    · rw [hnew]
      rfl
  | thread id a =>
    obtain ⟨c, hc, hnext⟩ := Option.bind_eq_some_iff.mp hs
    obtain ⟨pc, hmoves⟩ := next_moves h hc hnext
    exact inv_moves h hmoves
  | opens fd broadcast =>
    obtain ⟨hfree, hs⟩ := Option.ite_none_right_eq_some.mp hs
    cases hs
    exact inv_put h (by simp [hfree]) (by simp)
  | closes fd =>
    obtain ⟨howner, hs⟩ := Option.ite_none_right_eq_some.mp hs
    cases hs
    exact inv_put h (by simp [howner]) (by simp)

/-- Nobody but its owner touches a socket that no call has made. -/
theorem foreign_step {a : Act} {fd : Nat} {broadcast : Bool} (h : Inv s) (hs : s.step a = some t)
    (hfd : s.table fd = some ⟨none, broadcast⟩) (ha : a ≠ .closes fd) : t.table fd = some ⟨none, broadcast⟩ := by
  cases a with
  | call id port buffer =>
    obtain ⟨-, hs⟩ := Option.ite_none_right_eq_some.mp hs
    cases hs
    exact hfd
  | thread id a =>
    obtain ⟨c, hc, hnext⟩ := Option.bind_eq_some_iff.mp hs
    obtain ⟨pc, hmoves⟩ := next_moves h hc hnext
    exact (hmoves.foreign fd _ (Option.some_ne_none id).symm).mpr hfd
  | opens fd' broadcast' =>
    obtain ⟨hfree, hs⟩ := Option.ite_none_right_eq_some.mp hs
    cases hs
    have hne : fd ≠ fd' := by
      intro heq
      subst heq
      cases hfree.symm.trans hfd
    rwa [put_other hne]
  | closes fd' =>
    obtain ⟨-, hs⟩ := Option.ite_none_right_eq_some.mp hs
    cases hs
    have hne : fd ≠ fd' := by
      intro heq
      exact ha (congrArg Act.closes heq.symm)
    rwa [put_other hne]

/-! ## Runs -/

/-- In every interleaving of any number of broadcasts with threads that open and close
    descriptors of their own, whatever the system calls return: a call in flight has exactly
    the socket that it made, one that has ended none; where it sends, that socket is open
    and may broadcast; it has sent its buffer once, through that socket, if it has returned,
    and never if it throws; and no socket of anybody else is closed or changed by a call. -/
theorem broadcasts_keep_apart (h0 : Started s) (hrun : run step s as = some t) :
    (∀ fd id, (t.table fd).map (·.owner) = some (some id) ↔ t.held id = some fd) ∧
      (∀ id c, t.calls id = some c → t.sent.filter (·.caller = id) = due id c ∧
        ∀ fd, c.pc = .sendto fd → t.table fd = some ⟨some id, true⟩) ∧
      ∀ fd broadcast, t.table fd = some ⟨none, broadcast⟩ → ∀ bs u, run step t bs = some u → .closes fd ∉ bs →
        u.table fd = some ⟨none, broadcast⟩ := by
  have ht : Inv t := run_invariant (fun _ _ _ hinv hs => inv_step hinv hs) (inv_started h0) hrun
  refine ⟨ht.own, ?_, ?_⟩
  · intro id c hc
    have hsent := ht.sent id
    rw [hc] at hsent
    exact ⟨hsent, fun fd => ht.enabled id c fd hc⟩
  · intro fd broadcast hfd bs u hbs hnot
    have hboth : Inv u ∧ u.table fd = some ⟨none, broadcast⟩ := by
      refine run_trace_of_forall (I := fun _ m => Inv m ∧ m.table fd = some ⟨none, broadcast⟩)
        (P := fun a => a ≠ .closes fd) ?_ ⟨ht, hfd⟩ ?_ hbs
      · intro _ m a n hm ha hs
        exact ⟨inv_step hm.1 hs, foreign_step hm.1 hs hm.2 ha⟩
      · intro a ha heq
        exact hnot (heq ▸ ha)
    exact hboth.2

/-- A server listens on descriptor 3. The second of two calls is refused, and its number is
    given to another thread before the first one sends. -/
def twoCalls : List Act :=
  [.call 0 4210 [1], .call 1 4210 [2], .thread 0 (.socket (some 4)), .thread 1 (.socket (some 5)),
    .thread 0 (.result none), .thread 1 (.result (some 13)), .thread 1 (.result none), .opens 5 false,
    .thread 0 (.result none), .thread 0 (.result none)]

def listening3 : Host := ⟨fun fd => if fd = 3 then some ⟨none, false⟩ else none, fun _ => none, []⟩

theorem started_listening3 : Started listening3 := by
  refine ⟨fun _ => rfl, ?_, rfl⟩
  intro fd id
  unfold listening3
  dsimp only
  split <;> simp

theorem broadcasts_keep_apart_when_one_is_refused :
    ∃ t, run step listening3 twoCalls = some t ∧
      (t.sent, [3, 4, 5].map t.table) =
        ([⟨0, some 0, ⟨0xffffffff, 4210⟩, [1]⟩], [some ⟨none, false⟩, none, some ⟨none, false⟩]) ∧
      (∀ fd id, (t.table fd).map (·.owner) = some (some id) ↔ t.held id = some fd) ∧
      (∀ id c, t.calls id = some c → t.sent.filter (·.caller = id) = due id c ∧
        ∀ fd, c.pc = .sendto fd → t.table fd = some ⟨some id, true⟩) ∧
      ∀ fd broadcast, t.table fd = some ⟨none, broadcast⟩ → ∀ bs u, run step t bs = some u → .closes fd ∉ bs →
        u.table fd = some ⟨none, broadcast⟩ := by
  have hrun : (run step listening3 twoCalls).map (fun t => (t.sent, [3, 4, 5].map t.table)) =
      some ([⟨0, some 0, ⟨0xffffffff, 4210⟩, [1]⟩], [some ⟨none, false⟩, none, some ⟨none, false⟩]) := by decide +kernel
  obtain ⟨t, ht, hsent⟩ := Option.map_eq_some_iff.mp hrun
  exact ⟨t, ht, hsent, broadcasts_keep_apart started_listening3 ht⟩

end Host

end Broadcast

end ComClient.Lifecycle
