/-
  ComClient.Server.Udp — the receive thread of a `UDPServer` (`receive_data` in
  `src/include/udp_client.hpp`, the Linux branches).

  What `recvfrom` returns is part of the action. It stores at most the bytes it is asked
  for, one less than the buffer holds, and the sender in `client_addr`. `m_fifos` and the
  buffer are the thread's own, so handling a datagram is one step. Memory outside the
  buffer is part of `buffer` (`ComClient.Transport.Mem`), so a write past its end would
  show.

  - `receiving_run`: until the flag is cleared the thread stays in its loop, whatever
    `recvfrom` returns.
-/

import ComClient.Lts.Run
import ComClient.Server.Tcp
import ComClient.Transport.Code

namespace ComClient.Server

open ComClient.Lts
open ComClient.Transport (Byte Mem store load SockAddr)

inductive ReceivePc where
  | check
  | recvfrom
  | done
  deriving DecidableEq, Repr

/-- A datagram, or `SOCKET_ERROR` with `errno`. -/
inductive RecvFrom where
  | datagram (src : SockAddr) (payload : List Byte)
  | error (e : Errno)
  deriving DecidableEq, Repr

/-- What the thread does with a datagram: `m_callback`, or `sendto`. -/
inductive Output where
  | callback (src : SockAddr) (bytes : List Byte)
  | echo (dst : SockAddr) (addrLen : Nat) (bytes : List Byte)
  deriving DecidableEq, Repr

structure UDPServer where
  running : Bool
  receive : ReceivePc
  fifos : AList fun _ : BitVec 32 => List Byte
  hasCallback : Bool
  buffer : Mem
  clientAddr : SockAddr
  clientAddrLen : Nat
  outputs : List Output

inductive UdpAct where
  | go
  | recvfrom (r : RecvFrom)
  | setCallback (installed : Bool)
  /-- `stop()` clears the flag. -/
  | clear
  deriving DecidableEq, Repr

namespace UDPServer

def bufferSize : Nat := 1024

/-- `sizeof(SOCKADDR_IN)` -/
def sockaddrSize : Nat := 16

/-- The branch `bytes_received > 0`; `n` bytes are in the buffer. -/
def handle (s : UDPServer) (n : Nat) : UDPServer :=
  let buffer := store s.buffer n [0]
  let bytes := load buffer 0 n
  let key := s.clientAddr.addr
  let out := if s.hasCallback then .callback s.clientAddr bytes else .echo s.clientAddr s.clientAddrLen bytes
  { s with
    buffer := buffer
    fifos := s.fifos.insert key ((s.fifos.lookup key).getD [] ++ bytes)
    outputs := s.outputs ++ [out] }

/-- One call of `recvfrom` and what follows it. -/
def recvfrom (s : UDPServer) : RecvFrom → UDPServer
  | .datagram src payload =>
    let bytes := payload.take (bufferSize - 1)
    let s := { s with buffer := store s.buffer 0 bytes, clientAddr := src, clientAddrLen := sockaddrSize }
    if 0 < bytes.length then s.handle bytes.length else s
  -- An error is printed, unless there is just no data, and the loop goes on.
  | .error _ => s

def step (s : UDPServer) : UdpAct → Option UDPServer
  | .go =>
    match s.receive with
    | .check => some { s with receive := if s.running then .recvfrom else .done }
    | _ => none
  | .recvfrom r => if s.receive = .recvfrom then some { s.recvfrom r with receive := .check } else none
  | .setCallback installed => some { s with hasCallback := installed }
  | .clear => if s.running then some { s with running := false } else none

variable {s t : UDPServer} {as : List UdpAct}

/-! ## The loop -/

/-- `start()` has returned normally. -/
structure Started (s : UDPServer) : Prop where
  running : s.running = true
  receive : s.receive = .check

def started : UDPServer where
  running := true
  receive := .check
  fifos := ∅
  hasCallback := false
  buffer := fun _ => 0
  clientAddr := ⟨0, 0⟩
  clientAddrLen := sockaddrSize
  outputs := []

theorem started_started : Started started := ⟨rfl, rfl⟩

/-- `stop()` has not been called in the run. -/
def NoStop (as : List UdpAct) : Prop := UdpAct.clear ∉ as

theorem recvfrom_running (s : UDPServer) (r : RecvFrom) : (s.recvfrom r).running = s.running := by
  cases r with
  | error e => rfl
  | datagram src payload =>
    unfold recvfrom
    dsimp only
    split <;> rfl

structure Receiving (s : UDPServer) : Prop where
  running : s.running = true
  inLoop : s.receive ≠ .done

theorem receiving_step {a : UdpAct} (h : Receiving s) (ha : a ≠ .clear) (hs : s.step a = some t) : Receiving t := by
  cases a with
  | go =>
    simp only [step] at hs
    split at hs
    · cases hs
      refine ⟨h.running, ?_⟩
      rw [if_pos h.running]
      exact nofun
    · cases hs
  | recvfrom r =>
    obtain ⟨-, hs⟩ := Option.ite_none_right_eq_some.mp hs
    cases hs
    exact ⟨(recvfrom_running s r).trans h.running, nofun⟩
  | setCallback installed =>
    cases hs
    exact ⟨h.running, h.inLoop⟩
  | clear => exact absurd rfl ha

/-- Until `stop()` the receive thread stays in its loop. -/
theorem receiving_run (h0 : Started s) (hstop : NoStop as) (hrun : run step s as = some t) : Receiving t := by
  have hok : ∀ a ∈ as, a ≠ .clear := fun a ha he => hstop (he ▸ ha)
  refine run_invariant_of_meets (fun _ _ _ => receiving_step) ⟨h0.running, ?_⟩ (meets_of_forall hok) hrun
  rw [h0.receive]
  exact nofun

end UDPServer

end ComClient.Server
