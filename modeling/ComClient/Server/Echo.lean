/-
  ComClient.Server.Echo — a `UDPServer` without a callback, UDP clients that were opened
  for it, and the network between them.

  The network may lose a datagram, deliver it late or in another order, and deliver it
  again. A datagram that it delivers to the server is the next one that `recvfrom` there
  returns; one for a client waits in its socket until a `readS` takes it. `sent` is what
  the clients' `writeS` handed to the network and `arrived` what has reached their sockets,
  for the statements only.

  - `only_own_echoes`: whatever the network does, nothing reaches a client but what it sent
    itself, cut to 1023 bytes and never empty, and it stays with the server.
  - `echoed_once`: where the network delivers nothing twice, each datagram of a client
    brings one at most; where it loses none either, it brings one unless it is empty, or is
    still on its way.
-/

import ComClient.Client.Peer
import ComClient.Lts.Refine
import ComClient.Server.UdpFifos

namespace ComClient.Echo

open ComClient.Lts ComClient.Transport
open ComClient.Client (Peer.St Peer.IsFrom)
open ComClient.Server
open ComClient.Server.UDPServer (sockaddrSize)

structure Packet where
  src : SockAddr
  dst : SockAddr
  payload : List Byte
  deriving DecidableEq, Repr

structure Net where
  server : UDPServer
  /-- A client, by the address its socket sends from. -/
  clients : SockAddr → Option Client.Peer.St
  flying : List Packet
  sent : List Packet
  arrived : List Packet

inductive Act where
  /-- A `writeS`; `sendto` fails or takes the datagram. -/
  | write (me : SockAddr) (buffer : Mem) (size : SizeT) (addCrc sends : Bool)
  | read (me : SockAddr) (buffer : Mem) (size : SizeT) (hasCrc readUntil : Bool)
  /-- `recvfrom` will fail once. -/
  | fail (me : SockAddr)
  | toServer (p : Packet) (again : Bool)
  | toClient (p : Packet) (again : Bool)
  | lose (p : Packet)
  /-- Any other step of the receive thread or of `stop()`. -/
  | serve (a : UdpAct)

namespace Net

/-- What a `sendto` of the server puts on its way. -/
def packetOf (srv : SockAddr) : Output → Option Packet
  | .echo dst _ bytes => some ⟨srv, dst, bytes⟩
  | .callback _ _ => none

def setClient (s : Net) (me : SockAddr) (c : Client.Peer.St) : Net :=
  { s with clients := Function.update s.clients me (some c) }

/-- The network keeps a datagram that it will deliver again. -/
def taken (flying : List Packet) (p : Packet) (again : Bool) : List Packet := if again then flying else flying.erase p

/-- `recvfrom` is a step of its own where it returns a datagram. -/
def isDatagram : UdpAct → Bool
  | .recvfrom (.datagram _ _) => true
  | _ => false

def step (srv : SockAddr) (s : Net) : Act → Option Net
  | .write me buffer size addCrc sends =>
    (s.clients me).bind fun c =>
      let w := UDP.writeS c.client (fun bytes => if sends then bytes.length else -1) buffer size addCrc
      let out := w.sent.toList.filterMap fun m => m.dst.bind fun dst => if sends then some ⟨me, dst, m.bytes⟩ else none
      some { s with flying := s.flying ++ out, sent := s.sent ++ out }
  | .read me buffer size hasCrc readUntil =>
    (s.clients me).bind fun c => (Client.Peer.step c (.readS buffer size hasCrc readUntil)).map (s.setClient me)
  | .fail me => (s.clients me).bind fun c => (Client.Peer.step c (.arrive .error)).map (s.setClient me)
  | .toServer p again =>
    if p ∈ s.flying ∧ p.dst = srv then
      (s.server.step (.recvfrom (.datagram p.src p.payload))).map fun server =>
        let out := (server.outputs.drop s.server.outputs.length).filterMap (packetOf srv)
        { s with server := server, flying := taken s.flying p again ++ out }
    else none
  | .toClient p again =>
    if p ∈ s.flying ∧ p.dst ≠ srv then
      (s.clients p.dst).bind fun c =>
        (Client.Peer.step c (.arrive (.dgram p.src p.payload))).map fun c =>
          { s.setClient p.dst c with flying := taken s.flying p again, arrived := s.arrived ++ [p] }
    else none
  | .lose p => if p ∈ s.flying then some { s with flying := s.flying.erase p } else none
  | .serve a => if isDatagram a then none else (s.server.step a).map fun server => { s with server := server }

variable {srv : SockAddr} {s t : Net} {as : List Act}

/-! ## What a step does -/

/-- What the server sends back for a datagram. -/
def echoOf (srv : SockAddr) (s : Net) (p : Packet) : List Packet :=
  if UDPServer.stored p.payload = [] ∨ s.server.hasCallback = true then [] else [⟨srv, p.src, UDPServer.stored p.payload⟩]

inductive Step (srv : SockAddr) (s : Net) : Act → Net → Prop
  | write (me : SockAddr) (c : Client.Peer.St) (buffer : Mem) (size : SizeT) (addCrc : Bool) (p : Packet) :
      s.clients me = some c → p.src = me → p.dst = c.client.addrTo →
      Step srv s (.write me buffer size addCrc true) { s with flying := s.flying ++ [p], sent := s.sent ++ [p] }
  | writeFails (me : SockAddr) (buffer : Mem) (size : SizeT) (addCrc : Bool) :
      Step srv s (.write me buffer size addCrc false) s
  | read (me : SockAddr) (c c' : Client.Peer.St) (buffer : Mem) (size : SizeT) (hasCrc readUntil : Bool) :
      s.clients me = some c → Client.Peer.step c (.readS buffer size hasCrc readUntil) = some c' →
      Step srv s (.read me buffer size hasCrc readUntil) (s.setClient me c')
  | fail (me : SockAddr) (c : Client.Peer.St) : s.clients me = some c →
      Step srv s (.fail me) (s.setClient me { c with queue := c.queue ++ [.error] })
  | toServer (p : Packet) (again : Bool) (server : UDPServer) : p ∈ s.flying → p.dst = srv →
      server.hasCallback = s.server.hasCallback →
      Step srv s (.toServer p again) { s with server := server, flying := taken s.flying p again ++ echoOf srv s p }
  | toClient (p : Packet) (again : Bool) (c : Client.Peer.St) : p ∈ s.flying → p.dst ≠ srv → s.clients p.dst = some c →
      Step srv s (.toClient p again)
        { s.setClient p.dst { c with queue := c.queue ++ [.dgram p.src p.payload] } with
          flying := taken s.flying p again, arrived := s.arrived ++ [p] }
  | lose (p : Packet) : p ∈ s.flying → Step srv s (.lose p) { s with flying := s.flying.erase p }
  | serve (a : UdpAct) (server : UDPServer) : server.hasCallback = UDPServer.installs s.server.hasCallback a →
      Step srv s (.serve a) { s with server := server }

theorem echoOf_eq {p : Packet} {server : UDPServer}
    (h : s.server.step (.recvfrom (.datagram p.src p.payload)) = some server) :
    (server.outputs.drop s.server.outputs.length).filterMap (packetOf srv) = echoOf srv s p := by
  rw [(UDPServer.does_step h).outputs, List.drop_left]
  unfold echoOf UDPServer.answers
  by_cases hempty : UDPServer.stored p.payload = []
  · simp [hempty]
  · cases hcb : s.server.hasCallback with
    | true => simp [hempty, packetOf]
    | false => simp [hempty, packetOf]

theorem step_cases {a : Act} (h : s.step srv a = some t) : Step srv s a t := by
  cases a with
  | write me buffer size addCrc sends =>
    obtain ⟨c, hc, h⟩ := Option.bind_eq_some_iff.mp h
    cases h
    cases sends with
    | true => exact .write me c buffer size addCrc ⟨me, c.client.addrTo, _⟩ hc rfl rfl
    | false =>
      have hnone : ∀ l : List Packet, l ++ [] = l := List.append_nil
      simp only [UDP.writeS, handOver, Option.toList_some, List.filterMap_cons, Option.bind_some, Bool.false_eq_true,
        if_false, List.filterMap_nil, hnone]
      exact .writeFails me buffer size addCrc
  | read me buffer size hasCrc readUntil =>
    obtain ⟨c, hc, h⟩ := Option.bind_eq_some_iff.mp h
    obtain ⟨c', hc', h⟩ := Option.map_eq_some_iff.mp h
    cases h
    exact .read me c c' buffer size hasCrc readUntil hc hc'
  | fail me =>
    obtain ⟨c, hc, h⟩ := Option.bind_eq_some_iff.mp h
    obtain ⟨c', hc', h⟩ := Option.map_eq_some_iff.mp h
    cases hc'
    cases h
    exact .fail me c hc
  | toServer p again =>
    obtain ⟨⟨hp, hdst⟩, h⟩ := Option.ite_none_right_eq_some.mp h
    obtain ⟨server, hserver, h⟩ := Option.map_eq_some_iff.mp h
    cases h
    dsimp only
    rw [echoOf_eq hserver]
    exact .toServer p again server hp hdst (UDPServer.does_step hserver).hasCallback
  | toClient p again =>
    obtain ⟨⟨hp, hdst⟩, h⟩ := Option.ite_none_right_eq_some.mp h
    obtain ⟨c, hc, h⟩ := Option.bind_eq_some_iff.mp h
    obtain ⟨c', hc', h⟩ := Option.map_eq_some_iff.mp h
    cases hc'
    cases h
    exact .toClient p again c hp hdst hc
  | lose p =>
    obtain ⟨hp, h⟩ := Option.ite_none_right_eq_some.mp h
    cases h
    exact .lose p hp
  | serve a =>
    obtain ⟨-, h⟩ := Option.ite_none_left_eq_some.mp h
    obtain ⟨server, hserver, h⟩ := Option.map_eq_some_iff.mp h
    cases h
    exact .serve a server (UDPServer.does_step hserver).hasCallback

/-! ## Only its own -/

/-- An echo of something that its receiver sent. -/
def IsEcho (srv : SockAddr) (sent : List Packet) (p : Packet) : Prop :=
  p.src = srv ∧ p.payload ≠ [] ∧ ∃ q ∈ sent, q.src = p.dst ∧ p.payload = q.payload.take 1023

/-- What waits in a client's socket. -/
def Own (srv me : SockAddr) (sent : List Packet) : Dgram → Prop
  | .dgram src payload => IsEcho srv sent ⟨src, me, payload⟩
  | .error => True

/-- The client talks to the server, and hears nothing but echoes. -/
structure Kept (srv me : SockAddr) (sent : List Packet) (c : Client.Peer.St) : Prop where
  peer : c.client.addrTo = srv
  own : ∀ e ∈ c.queue, Own srv me sent e

structure Inv (srv : SockAddr) (s : Net) : Prop where
  noServer : s.clients srv = none
  sent : ∀ p ∈ s.sent, p.src ≠ srv ∧ p.dst = srv
  flying : ∀ p ∈ s.flying, p ∈ s.sent ∨ IsEcho srv s.sent p
  arrived : ∀ p ∈ s.arrived, IsEcho srv s.sent p
  clients : ∀ me c, s.clients me = some c → Kept srv me s.sent c

theorem IsEcho.mono {l l' : List Packet} {p : Packet} (h : IsEcho srv l p) (hl : ∀ q ∈ l, q ∈ l') : IsEcho srv l' p := by
  obtain ⟨hsrc, hne, q, hq, hdst, hpay⟩ := h
  exact ⟨hsrc, hne, q, hl q hq, hdst, hpay⟩

theorem Kept.mono {me : SockAddr} {l l' : List Packet} {c : Client.Peer.St} (h : Kept srv me l c)
    (hl : ∀ q ∈ l, q ∈ l') : Kept srv me l' c := by
  refine ⟨h.peer, ?_⟩
  intro e he
  have hown := h.own e he
  cases e with
  | dgram src payload => exact IsEcho.mono hown hl
  | error => trivial

/-- A datagram more in its queue. -/
theorem Kept.arrive {me : SockAddr} {l : List Packet} {c : Client.Peer.St} {e : Dgram} (h : Kept srv me l c)
    (he : Own srv me l e) : Kept srv me l { c with queue := c.queue ++ [e] } := by
  refine ⟨h.peer, ?_⟩
  intro e' he'
  rcases List.mem_append.mp he' with hmem | hmem
  · exact h.own e' hmem
  · rw [List.mem_singleton.mp hmem]
    exact he

theorem isFrom_of_own {me : SockAddr} {l : List Packet} {e : Dgram} (h : Own srv me l e) : Client.Peer.IsFrom srv e := by
  cases e with
  | dgram src payload => exact h.1
  | error => trivial

/-- A `readS` leaves some of what waited. -/
theorem callsFrom_rest (fd : Int) (size : SizeT) (go : Bool) (n : Int) (buf : Mem) (k : SockAddr) (es : List Dgram) :
    (callsFrom datagrams fd size go n buf k es).rest <:+ es := by
  induction es generalizing n buf k with
  | nil => exact List.suffix_refl _
  | cons e es ih =>
    simp only [callsFrom]
    split
    · split
      · exact (ih _ _ _).trans (List.suffix_cons e es)
      · exact List.suffix_cons e es
    · exact List.suffix_cons e es

theorem Kept.read {me : SockAddr} {l : List Packet} {c c' : Client.Peer.St} {buffer : Mem} {size : SizeT}
    {hasCrc readUntil : Bool} (h : Kept srv me l c)
    (hs : Client.Peer.step c (.readS buffer size hasCrc readUntil) = some c') : Kept srv me l c' := by
  have hfrom : Client.Peer.Undisturbed srv c (.readS buffer size hasCrc readUntil) := fun e he => isFrom_of_own (h.own e he)
  refine ⟨Client.Peer.step_addrTo h.peer hfrom hs, ?_⟩
  have hrest : c'.queue <:+ c.queue := by
    simp only [Client.Peer.step] at hs
    split at hs
    · cases hs
      rw [UDP.readS, readBody_rest, readCalls_eq]
      exact callsFrom_rest _ _ _ _ _ _ _
    · cases hs
  intro e he
  exact h.own e (hrest.subset he)

theorem setClient_same (s : Net) (me : SockAddr) (c : Client.Peer.St) : (s.setClient me c).clients me = some c :=
  Function.update_self ..

theorem setClient_ne {me you : SockAddr} (h : you ≠ me) (s : Net) (c : Client.Peer.St) :
    (s.setClient me c).clients you = s.clients you := Function.update_of_ne h ..

/-- A client does something, and nothing else happens. -/
theorem inv_setClient {me : SockAddr} {c c' : Client.Peer.St} (h : Inv srv s) (hc : s.clients me = some c)
    (hkept : Kept srv me s.sent c') : Inv srv (s.setClient me c') where
  noServer := by
    have hne : srv ≠ me := by
      intro heq
      subst heq
      rw [h.noServer] at hc
      cases hc
    rw [setClient_ne hne]
    exact h.noServer
  sent := h.sent
  flying := h.flying
  arrived := h.arrived
  clients you d hd := by
    by_cases hyou : you = me
    · subst hyou
      rw [setClient_same] at hd
      cases hd
      exact hkept
    · rw [setClient_ne hyou] at hd
      exact h.clients you d hd

theorem mem_of_taken {l : List Packet} {p q : Packet} {again : Bool} (h : q ∈ taken l p again) : q ∈ l := by
  unfold taken at h
  split at h
  · exact h
  · exact List.mem_of_mem_erase h

/-- What the network carries is on its way to the server, or an echo. -/
theorem isEcho_of_flying (h : Inv srv s) {p : Packet} (hp : p ∈ s.flying) (hdst : p.dst ≠ srv) : IsEcho srv s.sent p := by
  rcases h.flying p hp with hsent | hecho
  · exact absurd (h.sent p hsent).2 hdst
  · exact hecho

theorem isEcho_echoOf (h : Inv srv s) {p q : Packet} (hp : p ∈ s.flying) (hdst : p.dst = srv)
    (hq : q ∈ echoOf srv s p) : IsEcho srv s.sent q := by
  have hsent : p ∈ s.sent := by
    rcases h.flying p hp with hsent | ⟨-, -, r, hr, hsrc, -⟩
    · exact hsent
    · exact absurd (hsrc.trans hdst) (h.sent r hr).1
  unfold echoOf at hq
  split at hq
  · cases hq
  · rename_i hne
    cases List.mem_singleton.mp hq
    exact ⟨rfl, fun hnil => hne (Or.inl hnil), p, hsent, rfl, rfl⟩

theorem inv_step {a : Act} (h : Inv srv s) (hs : s.step srv a = some t) : Inv srv t := by
  cases step_cases hs with
  | write me c buffer size addCrc p hc hsrc hdst =>
    have hme : me ≠ srv := by
      intro heq
      subst heq
      rw [h.noServer] at hc
      cases hc
    have hmore : ∀ q ∈ s.sent, q ∈ s.sent ++ [p] := fun q hq => List.mem_append_left _ hq
    refine ⟨h.noServer, ?_, ?_, fun q hq => (h.arrived q hq).mono hmore, fun you d hd => (h.clients you d hd).mono hmore⟩
    · intro q hq
      rcases List.mem_append.mp hq with hq | hq
      · exact h.sent q hq
      · rw [List.mem_singleton.mp hq, hsrc, hdst]
        exact ⟨hme, (h.clients me c hc).peer⟩
    · intro q hq
      rcases List.mem_append.mp hq with hq | hq
      · rcases h.flying q hq with hsent | hecho
        · exact Or.inl (hmore q hsent)
        · exact Or.inr (hecho.mono hmore)
      · exact Or.inl (List.mem_append_right _ hq)
  | writeFails me buffer size addCrc => exact h
  | read me c c' buffer size hasCrc readUntil hc hread => exact inv_setClient h hc ((h.clients me c hc).read hread)
  | fail me c hc => exact inv_setClient h hc ((h.clients me c hc).arrive trivial)
  | toServer p again server hp hdst hcb =>
    refine ⟨h.noServer, h.sent, ?_, h.arrived, h.clients⟩
    intro q hq
    rcases List.mem_append.mp hq with hq | hq
    · exact h.flying q (mem_of_taken hq)
    · exact Or.inr (isEcho_echoOf h hp hdst hq)
  | toClient p again c hp hdst hc =>
    have hecho : IsEcho srv s.sent p := isEcho_of_flying h hp hdst
    have hset := inv_setClient h hc ((h.clients p.dst c hc).arrive (e := .dgram p.src p.payload) hecho)
    refine ⟨hset.noServer, h.sent, fun q hq => h.flying q (mem_of_taken hq), ?_, hset.clients⟩
    intro q hq
    rcases List.mem_append.mp hq with hq | hq
    · exact h.arrived q hq
    · rw [List.mem_singleton.mp hq]
      exact hecho
  | lose p hp => exact ⟨h.noServer, h.sent, fun q hq => h.flying q (List.mem_of_mem_erase hq), h.arrived, h.clients⟩
  | serve a server hcb => exact ⟨h.noServer, h.sent, h.flying, h.arrived, h.clients⟩

/-- Clients that have been opened for the server, and nothing on the way. -/
structure Fresh (srv : SockAddr) (s : Net) : Prop where
  noServer : s.clients srv = none
  clients : ∀ me c, s.clients me = some c → c.client.addrTo = srv ∧ c.queue = []
  flying : s.flying = []
  sent : s.sent = []
  arrived : s.arrived = []

theorem inv_fresh (h : Fresh srv s) : Inv srv s where
  noServer := h.noServer
  sent p hp := by rw [h.sent] at hp; cases hp
  flying p hp := by rw [h.flying] at hp; cases hp
  arrived p hp := by rw [h.arrived] at hp; cases hp
  clients me c hc := by
    obtain ⟨hpeer, hqueue⟩ := h.clients me c hc
    refine ⟨hpeer, ?_⟩
    intro e he
    rw [hqueue] at he
    cases he

theorem inv_run (h0 : Fresh srv s) (hrun : run (step srv) s as = some t) : Inv srv t :=
  run_invariant (fun _ _ _ => inv_step) (inv_fresh h0) hrun

/-- Whatever the clients do, and whatever the network loses, delays, reorders or delivers again:
    what a client still talks to is the server, all that waits in its socket came from there
    and is a datagram of its own, cut to 1023 bytes and not empty, and so is all that has
    arrived for it. -/
theorem only_own_echoes (h0 : Fresh srv s) (hrun : run (step srv) s as = some t) :
    (∀ me c, t.clients me = some c → Kept srv me t.sent c) ∧ ∀ p ∈ t.arrived, IsEcho srv t.sent p :=
  ⟨(inv_run h0 hrun).clients, (inv_run h0 hrun).arrived⟩

def server7 : SockAddr := ⟨0x7f000001, 7⟩

def alice : SockAddr := ⟨0x7f000001, 5000⟩

def bob : SockAddr := ⟨0x0a000001, 6000⟩

/-- Two clients that were opened for the server. -/
def two : Net where
  server := UDPServer.started
  clients me := if me = alice ∨ me = bob then some ⟨⟨3, true, server7⟩, []⟩ else none
  flying := []
  sent := []
  arrived := []

theorem fresh_two : Fresh server7 two where
  noServer := by decide
  clients me c hc := by
    simp only [two, Option.ite_none_right_eq_some] at hc
    cases hc.2
    exact ⟨rfl, rfl⟩
  flying := rfl
  sent := rfl
  arrived := rfl

/-- The echo is delivered to the client a second time. -/
def deliveredAgain : List Act :=
  [.write alice (memOf [1, 2]) (toSizeT 2) false true, .serve .go, .toServer ⟨alice, server7, [1, 2]⟩ false,
    .toClient ⟨server7, alice, [1, 2]⟩ true, .toClient ⟨server7, alice, [1, 2]⟩ false]

theorem only_own_echoes_when_delivered_again :
    ∃ t, run (step server7) two deliveredAgain = some t ∧
      (∀ me c, t.clients me = some c → Kept server7 me t.sent c) ∧ ∀ p ∈ t.arrived, IsEcho server7 t.sent p := by
  have hsome : (run (step server7) two deliveredAgain).isSome := by decide +kernel
  obtain ⟨t, ht⟩ := Option.isSome_iff_exists.mp hsome
  exact ⟨t, ht, only_own_echoes fresh_two ht⟩

/-! ## Once -/

section

variable (srv) (me : SockAddr) (x : List Byte)

/-- A datagram of the client that calls for the echo `x`. -/
def asks (p : Packet) : Bool := p.src = me ∧ UDPServer.stored p.payload = x

/-- The echo `x` for the client. -/
def answers (p : Packet) : Bool := p.src = srv ∧ p.dst = me ∧ p.payload = x

/-- How many datagrams of the client call for the echo `x`, are on their way to the server or
    back, or have come back. -/
def owed (s : Net) : Nat := s.sent.countP (asks me x)

def onTheWay (s : Net) : Nat := s.flying.countP (asks me x) + s.flying.countP (answers srv me x)

def came (s : Net) : Nat := s.arrived.countP (answers srv me x)

end

/-- The network delivers nothing twice. -/
def Once : Act → Prop
  | .toServer _ again => again = false
  | .toClient _ again => again = false
  | _ => True

/-- It loses nothing, and the server has no callback when a datagram comes. -/
def Lossless (s : Net) : Act → Prop
  | .lose _ => False
  | .toServer _ _ => s.server.hasCallback = false
  | _ => True

theorem countP_erase_add {l : List Packet} {p : Packet} (hp : p ∈ l) (q : Packet → Bool) :
    (l.erase p).countP q + (if q p then 1 else 0) = l.countP q := by
  rw [(List.perm_cons_erase hp).countP_eq q, List.countP_cons]

variable {me : SockAddr} {x : List Byte}

/-- What comes from the server asks for nothing, and what a client sent answers nothing. -/
theorem asks_of_server (hme : me ≠ srv) {p : Packet} (h : p.src = srv) : asks me x p = false := by
  refine decide_eq_false ?_
  intro hp
  exact hme (hp.1.symm.trans h)

theorem answers_of_client {p : Packet} (h : p.src ≠ srv) : answers srv me x p = false :=
  decide_eq_false fun hp => h hp.1

/-- The server answers what asks for an echo, with that echo. -/
theorem countP_echoOf (srv me : SockAddr) (s : Net) (hx : x ≠ []) (p : Packet) :
    (echoOf srv s p).countP (answers srv me x) =
      if s.server.hasCallback = true then 0 else if asks me x p then 1 else 0 := by
  unfold echoOf
  by_cases hcb : s.server.hasCallback = true
  · simp [hcb]
  · by_cases hempty : UDPServer.stored p.payload = []
    · have hnot : asks me x p = false := by
        refine decide_eq_false ?_
        intro hp
        exact hx (hp.2.symm.trans hempty)
      simp [hcb, hempty, hnot]
    · simp [hcb, hempty, answers, asks, List.countP_cons]

/-- What a step does to the account of a client and an echo: nothing new comes of it, and
    nothing is missing if the step loses nothing. -/
structure Accounted (srv me : SockAddr) (x : List Byte) (s : Net) (a : Act) (t : Net) : Prop where
  le : onTheWay srv me x t + came srv me x t + owed me x s ≤ onTheWay srv me x s + came srv me x s + owed me x t
  eq : Lossless s a → onTheWay srv me x t + came srv me x t + owed me x s = onTheWay srv me x s + came srv me x s + owed me x t

theorem account_same {a : Act} (hf : t.flying = s.flying) (hs : t.sent = s.sent) (ha : t.arrived = s.arrived) :
    Accounted srv me x s a t := by
  have hall : onTheWay srv me x t + came srv me x t + owed me x s = onTheWay srv me x s + came srv me x s + owed me x t := by
    unfold onTheWay came owed
    rw [hf, hs, ha]
  exact ⟨Nat.le_of_eq hall, fun _ => hall⟩

theorem account_step {a : Act} (h : Inv srv s) (hme : me ≠ srv) (hx : x ≠ []) (ha : Once a) (hs : s.step srv a = some t) :
    Accounted srv me x s a t := by
  cases step_cases hs with
  | write you c buffer size addCrc p hc hsrc hdst =>
    have hnot : answers srv me x p = false := by
      refine answers_of_client ?_
      rw [hsrc]
      intro heq
      subst heq
      rw [h.noServer] at hc
      cases hc
    constructor
    · simp only [onTheWay, came, owed, List.countP_append, List.countP_singleton, hnot, Bool.false_eq_true, if_false]
      omega
    · intro _
      simp only [onTheWay, came, owed, List.countP_append, List.countP_singleton, hnot, Bool.false_eq_true, if_false]
      omega
  | writeFails you buffer size addCrc => exact account_same rfl rfl rfl
  | read you c c' buffer size hasCrc readUntil hc hread => exact account_same rfl rfl rfl
  | fail you c hc => exact account_same rfl rfl rfl
  | toServer p again server hp hdst hcb =>
    cases ha
    have hsent : p.src ≠ srv := by
      rcases h.flying p hp with hsent | ⟨-, -, r, hr, hsrc, -⟩
      · exact (h.sent p hsent).1
      · exact absurd (hsrc.trans hdst) (h.sent r hr).1
    have hasks := countP_erase_add hp (asks me x)
    have hanswers := countP_erase_add hp (answers srv me x)
    have hecho := countP_echoOf srv me s hx p
    have hquiet : (echoOf srv s p).countP (asks me x) = 0 := by
      refine List.countP_eq_zero.mpr ?_
      intro q hq
      rw [asks_of_server hme (isEcho_echoOf h hp hdst hq).1]
      exact Bool.false_ne_true
    rw [answers_of_client hsent] at hanswers
    simp only [Bool.false_eq_true, if_false] at hanswers
    constructor
    · simp only [onTheWay, came, owed, taken, Bool.false_eq_true, if_false, List.countP_append, hquiet, hecho]
      split <;> omega
    · intro hcb
      have hnone : s.server.hasCallback = false := hcb
      simp only [onTheWay, came, owed, taken, Bool.false_eq_true, if_false, List.countP_append, hquiet, hecho, hnone]
      omega
  | toClient p again c hp hdst hc =>
    cases ha
    have hsrc : p.src = srv := (isEcho_of_flying h hp hdst).1
    have hasks := countP_erase_add hp (asks me x)
    have hanswers := countP_erase_add hp (answers srv me x)
    rw [asks_of_server hme hsrc] at hasks
    simp only [Bool.false_eq_true, if_false] at hasks
    constructor
    · simp only [onTheWay, came, owed, taken, setClient, Bool.false_eq_true, if_false, List.countP_append,
        List.countP_singleton]
      omega
    · intro _
      simp only [onTheWay, came, owed, taken, setClient, Bool.false_eq_true, if_false, List.countP_append,
        List.countP_singleton]
      omega
  | lose p hp =>
    have hasks := countP_erase_add hp (asks me x)
    have hanswers := countP_erase_add hp (answers srv me x)
    refine ⟨?_, fun hlost => hlost.elim⟩
    simp only [onTheWay, came, owed]
    omega
  | serve a server hcb => exact account_same rfl rfl rfl

/-- For every client and every echo, in every run in which the network delivers nothing twice:
    at most as many have come, or are on their way there or back, as the client sent datagrams
    that call for it; and exactly as many if nothing was lost and no callback was
    installed when a datagram came. -/
theorem echoed_once (h0 : Fresh srv s) (hme : me ≠ srv) (hx : x ≠ []) (honce : ∀ a ∈ as, Once a)
    (hrun : run (step srv) s as = some t) :
    onTheWay srv me x t + came srv me x t ≤ owed me x t ∧
      (Meets (step srv) Lossless s as → onTheWay srv me x t + came srv me x t = owed me x t) := by
  have hzero : onTheWay srv me x s + came srv me x s = owed me x s := by
    simp [onTheWay, came, owed, h0.flying, h0.arrived, h0.sent]
  constructor
  · have hboth : Inv srv t ∧ onTheWay srv me x t + came srv me x t ≤ owed me x t := by
      refine run_invariant_of_meets (I := fun s => Inv srv s ∧ onTheWay srv me x s + came srv me x s ≤ owed me x s) ?_
        ⟨inv_fresh h0, Nat.le_of_eq hzero⟩ (meets_of_forall honce) hrun
      intro s a t hI ha hs
      have hle := (account_step hI.1 hme hx ha hs).le
      refine ⟨inv_step hI.1 hs, ?_⟩
      have hbefore := hI.2
      omega
    exact hboth.2
  · intro hok
    have hboth : Inv srv t ∧ onTheWay srv me x t + came srv me x t = owed me x t := by
      have hall : Meets (step srv) (fun _ => Once) s as := meets_of_forall honce
      have hmeets := meets_and.mpr ⟨hok, hall⟩
      refine run_invariant_of_meets (I := fun s => Inv srv s ∧ onTheWay srv me x s + came srv me x s = owed me x s) ?_
        ⟨inv_fresh h0, hzero⟩ hmeets hrun
      intro s a t hI ha hs
      have heq := (account_step hI.1 hme hx ha.2 hs).eq ha.1
      refine ⟨inv_step hI.1 hs, ?_⟩
      have hbefore := hI.2
      omega
    exact hboth.2

/-- Both send; the second datagram overtakes the first, and both echoes come back. -/
def overtaken : List Act :=
  [.write alice (memOf [1, 2]) (toSizeT 2) false true, .write bob (memOf [3]) (toSizeT 1) false true, .serve .go,
    .toServer ⟨bob, server7, [3]⟩ false, .serve .go, .toServer ⟨alice, server7, [1, 2]⟩ false,
    .toClient ⟨server7, alice, [1, 2]⟩ false, .toClient ⟨server7, bob, [3]⟩ false,
    .read alice (memOf []) (toSizeT 2) false true]

theorem echoed_once_when_overtaken :
    ∃ t, run (step server7) two overtaken = some t ∧
      onTheWay server7 alice [1, 2] t + came server7 alice [1, 2] t ≤ owed alice [1, 2] t ∧
      (Meets (step server7) Lossless two overtaken →
        onTheWay server7 alice [1, 2] t + came server7 alice [1, 2] t = owed alice [1, 2] t) := by
  have hsome : (run (step server7) two overtaken).isSome := by decide +kernel
  obtain ⟨t, ht⟩ := Option.isSome_iff_exists.mp hsome
  have honce : ∀ a ∈ overtaken, Once a := by simp [overtaken, Once]
  exact ⟨t, ht, echoed_once fresh_two (by decide) (by decide) honce ht⟩

end Net

end ComClient.Echo
