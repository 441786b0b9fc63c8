/-
  ComClient.Client.Wire — whether the three clients agree on the wire format of a checked
  frame.

  TCP and Serial store the trailer behind the payload before they hand both over; UDP
  hands over as many bytes and stores none. So it sends the two bytes behind the payload as
  the caller left them.

  - `wire_format_iff`: exactly when a client hands over a frame that its peer accepts, and
    when all three hand over the same.
  - `a_datagram_without_its_trailer`: UDP sends zeros where TCP sends the trailer.
-/

import ComClient.Client.Peer
import ComClient.Client.Object
import ComClient.Transport.Frames

namespace ComClient.Client

open ComClient.Transport ComClient.Crc

/-- Connected, unless its `open_connection` never says so. -/
def Kind.Opened (x : Kind) (c : Client) : Prop := x.connects = true → c.isConnected = true

/-- A client whose open has returned. -/
theorem opened_of_open {strerror : Errno → String} {x : Kind} {k : Kernel} {address : String} {opt flags n : Int}
    {c : Client} (h : (x.openConnection strerror k address opt flags c).ended = .returned n) :
    x.Opened (x.openConnection strerror k address opt flags c).client := by
  obtain ⟨fd, -, -, hflag⟩ := open_returned h
  intro hconnects
  rw [hflag, hconnects]
  rfl

/-- The bytes `writeS(buffer, size, true)` hands to the kernel, if it makes the call. -/
def Kind.handed (x : Kind) (c : Client) (accept : List Byte → Int) (buffer : Mem) (size : SizeT) :
    Option (List Byte) :=
  match x with
  | .serial => (Serial.writeS c accept buffer size true).sent.map Sent.bytes
  | .tcp => (TCP.writeS c accept buffer size true).sent.map Sent.bytes
  | .udp => (UDP.writeS c accept buffer size true).sent.map Sent.bytes

/-- On a stream: whatever the pieces. -/
def AcceptedBy (t : StreamClient) (size : SizeT) (frame : List Byte) : Prop :=
  ∀ (peer : Client) (into : Mem) (more : List Byte) (f : Nat → Answer), peer.isConnected = true → Steady t f →
    ∃ u, ∀ es, (t.readS peer into size true true (frame ++ more) (firsts f u ++ es)).status = .returned size.val

/-- `readS(.., size, true)` on the peer returns the frame's size. -/
def Kind.Accepted (x : Kind) (size : SizeT) (frame : List Byte) : Prop :=
  match x with
  | .serial => AcceptedBy .serial size frame
  | .tcp => AcceptedBy .tcp size frame
  | .udp => ∀ (peer : Client) (into : Mem) (src : SockAddr) (es : List Dgram),
      (UDP.readS peer into size true true (.dgram src frame :: es)).status = .returned size.val

/-- A checked frame of the payload is handed over, and the peer accepts it. -/
def Kind.Framed (x : Kind) (c : Client) (accept : List Byte → Int) (buffer : Mem) (size : SizeT) : Prop :=
  ∃ a b, x.handed c accept buffer size = some (load buffer 0 size.val ++ [a, b]) ∧
    frameOk (load buffer 0 size.val ++ [a, b]) = true ∧
    x.Accepted (wireSize size true) (load buffer 0 size.val ++ [a, b])

/-- The bytes behind the payload are already its trailer. -/
def SpareBytesFit (buffer : Mem) (size : SizeT) : Prop :=
  [buffer size.val, buffer (size.val + 1)] = trailer (load buffer 0 size.val)

instance (buffer : Mem) (size : SizeT) : Decidable (SpareBytesFit buffer size) := inferInstanceAs (Decidable (_ = _))

/-! ## The peer -/

theorem stream_accepted (t : StreamClient) {size : SizeT} {frame : List Byte} (h2 : 2 ≤ size.val)
    (h31 : size.val < 2 ^ 31) (hlen : frame.length = size.val) (hok : frameOk frame = true) : AcceptedBy t size frame := by
  intro peer into more f hp hf
  obtain ⟨u, hu⟩ := read_frame hp size h2 h31 hlen into more hf
  refine ⟨u, fun es => ?_⟩
  rw [(hu es).1.status, hok, if_pos rfl, hlen]

theorem udp_accepted {size : SizeT} {frame : List Byte} (h2 : 2 ≤ size.val) (h31 : size.val < 2 ^ 31)
    (hlen : frame.length = size.val) (hok : frameOk frame = true) : Kind.udp.Accepted size frame := by
  intro peer into src es
  have hcast : toSizeT (size.val : Int) = size := toSizeT_eq (by omega)
  have htake : frame.take size.val = frame := List.take_of_length_le (by omega)
  have hfit : fitsSsize (size.val : Int) = true := fitsSsize_iff.mpr ⟨by omega, by omega⟩
  have hcalls : readCalls datagrams peer.fd into size true peer.addrTo (.dgram src frame :: es) =
      ⟨[⟨peer.fd, 0, size.val, some (.data frame)⟩], .returned size.val, store into 0 frame, src, es⟩ := by
    simp only [readCalls, datagrams, Recv.ret, Recv.bytes, htake, hlen, hfit, hcast, if_true, ne_eq, not_true_eq_false,
      false_and, if_false]
    rfl
  refine readBody_returned.mpr ⟨size.val, by rw [hcalls], ?_⟩
  rw [hcalls, retval_frame h2 h31 into hlen, hok, if_pos rfl]

theorem accepted_of_ok (x : Kind) {size : SizeT} {frame : List Byte} (h2 : 2 ≤ size.val)
    (h31 : size.val < 2 ^ 31) (hlen : frame.length = size.val) (hok : frameOk frame = true) : x.Accepted size frame := by
  cases x
  · exact stream_accepted .tcp h2 h31 hlen hok
  · exact stream_accepted .serial h2 h31 hlen hok
  · exact udp_accepted h2 h31 hlen hok

/-! ## What is handed over -/

theorem handed_stream {x : Kind} (hx : x ≠ .udp) {c : Client} (hc : x.Opened c) (accept : List Byte → Int) (buffer : Mem)
    {size : SizeT} (hsize : size.val < 2 ^ 31 - 2) :
    x.handed c accept buffer size = some (load buffer 0 size.val ++ trailer (load buffer 0 size.val)) := by
  cases x with
  | tcp => exact congrArg (Option.map Sent.bytes) (streamClient_writeS .tcp (hc rfl) accept buffer hsize)
  | serial => exact congrArg (Option.map Sent.bytes) (streamClient_writeS .serial (hc rfl) accept buffer hsize)
  | udp => exact absurd rfl hx

/-- Of any client, connected or not. -/
theorem handed_udp (c : Client) (accept : List Byte → Int) (buffer : Mem) {size : SizeT}
    (hsize : size.val < 2 ^ 31 - 2) : Kind.udp.handed c accept buffer size =
      some (load buffer 0 size.val ++ [buffer size.val, buffer (size.val + 1)]) := by
  show some (load buffer 0 (wireSize size true).val) = _
  rw [wireSize_true hsize, load_succ, load_succ]
  simp

/-- A transport hands over checked frames exactly when it is not UDP or the spare bytes
    already fit. -/
theorem framed_iff (x : Kind) {c : Client} (hc : x.Opened c) (accept : List Byte → Int) (buffer : Mem)
    {size : SizeT} (hsize : size.val < 2 ^ 31 - 2) :
    x.Framed c accept buffer size ↔ (x = .udp → SpareBytesFit buffer size) := by
  have hwire := wireSize_true hsize
  have hframed : ∀ a b, x.handed c accept buffer size = some (load buffer 0 size.val ++ [a, b]) →
      (x.Framed c accept buffer size ↔ [a, b] = trailer (load buffer 0 size.val)) := by
    intro a b hab
    rw [← frameOk_iff]
    constructor
    · intro h
      obtain ⟨a', b', hab', hok, -⟩ := h
      rw [Option.some.inj (hab.symm.trans hab')]
      exact hok
    · intro hok
      exact ⟨a, b, hab, hok, accepted_of_ok x (by omega) (by omega) (by rw [hwire]; simp) hok⟩
  by_cases hx : x = .udp
  · subst hx
    rw [hframed _ _ (handed_udp c accept buffer hsize)]
    exact ⟨fun h _ => h, fun h => h rfl⟩
  · rw [hframed _ _ (handed_stream hx hc accept buffer hsize)]
    exact ⟨fun _ h => absurd h hx, fun _ => rfl⟩

/-- Opened clients of the three transports hand over checked frames, and the same ones,
    exactly when the caller has left the trailer behind the payload himself; without that,
    all but UDP do. -/
theorem wire_format_iff (c : Kind → Client) (hc : ∀ x : Kind, x.Opened (c x)) (accept : List Byte → Int) (buffer : Mem)
    (size : SizeT) (hsize : size.val < 2 ^ 31 - 2) :
    (∀ x : Kind, x.Framed (c x) accept buffer size ↔ (x = .udp → SpareBytesFit buffer size)) ∧
    ((∀ x y : Kind, x.handed (c x) accept buffer size = y.handed (c y) accept buffer size) ↔
      SpareBytesFit buffer size) := by
  refine ⟨fun x => framed_iff x (hc x) accept buffer hsize, ?_⟩
  have hudp := handed_udp (c .udp) accept buffer hsize
  have hstream := fun x hx => handed_stream (x := x) hx (hc x) accept buffer hsize
  constructor
  · intro h
    have hsame := h .udp .tcp
    rw [hudp, hstream .tcp (by decide)] at hsame
    exact List.append_cancel_left (Option.some.inj hsame)
  · intro hfit
    have hall : ∀ x : Kind, x.handed (c x) accept buffer size =
        some (load buffer 0 size.val ++ trailer (load buffer 0 size.val)) := by
      intro x
      by_cases hx : x = .udp
      · subst hx
        rw [hudp, hfit]
      · exact hstream x hx
    intro x y
    rw [hall x, hall y]

/-- One client of each kind, as its open leaves it. -/
def openedClient (x : Kind) : Client :=
  (x.openConnection (fun _ => "") ⟨Peer.localhost, plugged 3⟩ "localhost" 9600 (-1) ⟨-1, false, ⟨0, 0⟩⟩).client

theorem opened_openedClient (x : Kind) : x.Opened (openedClient x) := by
  cases x with
  | tcp => exact opened_of_open (n := 1) rfl
  | serial => exact opened_of_open (n := 3) rfl
  | udp => exact opened_of_open (n := 1) rfl

theorem wire_format_one_byte : Kind.tcp.Framed (openedClient .tcp) Peer.acceptAll (memOf [1]) 1 := by
  obtain ⟨hframed, -⟩ := wire_format_iff openedClient opened_openedClient Peer.acceptAll (memOf [1]) 1 (by decide)
  exact (hframed .tcp).mpr nofun

/-- A one-byte payload with zeros behind, on clients that were opened: UDP sends the zeros
    where TCP sends the trailer, and the peer rejects the datagram. -/
theorem a_datagram_without_its_trailer :
    (UDP.openConnection Peer.localhost "localhost" 9600 ⟨-1, false, ⟨0, 0⟩⟩).ended = .returned 1 ∧
    openedClient .udp = (UDP.openConnection Peer.localhost "localhost" 9600 ⟨-1, false, ⟨0, 0⟩⟩).client ∧
    Kind.udp.handed (openedClient .udp) Peer.acceptAll (memOf [1]) 1 = some [1, 0, 0] ∧
    Kind.tcp.handed (openedClient .tcp) Peer.acceptAll (memOf [1]) 1 = some [1, 0x10, 0x21] ∧
    (UDP.readS (openedClient .udp) (fun _ => 7) 3 true true [.dgram ⟨0x7f000001, 9600⟩ [1, 0, 0]]).status = .returned (-1) ∧
    ¬ Kind.udp.Framed (openedClient .udp) Peer.acceptAll (memOf [1]) 1 := by
  refine ⟨rfl, rfl, by decide +kernel, by decide +kernel, by decide +kernel, fun h => ?_⟩
  exact absurd ((framed_iff .udp (opened_openedClient .udp) _ _ (by decide)).mp h rfl) (by decide +kernel)

end ComClient.Client
