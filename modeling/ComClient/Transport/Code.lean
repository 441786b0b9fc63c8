/-
  ComClient.Transport.Code — `readS` and `writeS` of the three clients (`src/tcp_client.cpp`,
  `src/serial_client.cpp`, `src/udp_client.cpp`, the Linux branches).

  The kernel is a `Device`: a state and, for every call, an event that decides the
  answer. Behind a TCP or serial descriptor is a byte stream (`stream`): an event lets
  up to so many bytes of it through, none at all (a serial timeout, or the peer has
  closed and nothing is left), or fails. Behind a UDP descriptor (`datagrams`) an event
  is one datagram or a failure, and the kernel's state is the address it writes into
  `m_addr_to`. A device never stores more than it was asked for; that is all the code
  knows of it.

  A `Run` of `readS` is given its events. It ends by returning, or is blocked in a call
  once they are used up, or has no defined continuation because a running total left
  `ssize_t`. It lists the calls made, each with its destination offset, its length and
  its result. The mutex is held throughout, so a run is one thread's.
-/

import ComClient.Crc.Code

namespace ComClient.Transport

open ComClient.Crc (checkCrc crc sCrctable)

/-! ## System calls -/

/-- What a `recv`, `read` or `recvfrom` did. -/
inductive Recv where
  | data (bytes : List Byte)
  | fail
  deriving DecidableEq, Repr

/-- The value returned. -/
def Recv.ret : Recv → Int
  | .data bytes => bytes.length
  | .fail => -1

/-- The bytes stored. -/
def Recv.bytes : Recv → List Byte
  | .data bytes => bytes
  | .fail => []

structure Call where
  fd : Int
  off : Int
  len : Nat
  /-- None while the call has not returned. -/
  res : Option Recv
  deriving DecidableEq, Repr

structure Device (κ ε : Type) where
  answer : κ → ε → Nat → Recv × κ
  within : ∀ k e len, (answer k e len).1.bytes.length ≤ len

inductive Answer where
  | upto (k : Nat)
  | error
  deriving DecidableEq, Repr

/-- A byte stream: the state is what is not read yet. -/
def stream : Device (List Byte) Answer where
  answer inbox a len := match a with
    | .upto k => (.data (inbox.take (min k len)), inbox.drop (min k len))
    | .error => (.fail, inbox)
  within inbox a len := by
    cases a with
    | upto k => simp only [Recv.bytes, List.length_take]; omega
    | error => exact Nat.zero_le _

structure SockAddr where
  addr : BitVec 32
  port : BitVec 16
  deriving DecidableEq, Repr

inductive Dgram where
  | dgram (src : SockAddr) (payload : List Byte)
  | error
  deriving DecidableEq, Repr

/-- Datagrams: one that is longer than asked for is cut; the sender goes to `m_addr_to`. -/
def datagrams : Device SockAddr Dgram where
  answer addrTo e len := match e with
    | .dgram src payload => (.data (payload.take len), src)
    | .error => (.fail, addrTo)
  within addrTo e len := by
    cases e with
    | dgram src payload => exact List.length_take_le _ _
    | error => exact Nat.zero_le _

/-! ## `readS` -/

/-- The members of `Client` that a call uses. -/
structure Client where
  fd : Int
  isConnected : Bool
  addrTo : SockAddr

def someClient : Client := ⟨3, true, ⟨0x7f000001, 5000⟩⟩

inductive Status where
  | returned (n : Int)
  | blocked
  | undefined
  deriving DecidableEq, Repr

structure Run (κ ε : Type) where
  calls : List Call
  status : Status
  buf : Mem
  kernel : κ
  rest : List ε

def Run.after {κ ε : Type} (c : Call) (r : Run κ ε) : Run κ ε := { r with calls := c :: r.calls }

section

variable {κ ε : Type} (d : Device κ ε)

/-- `while((size_t)n != size) n += recv(m_fd, buffer + n, size - n, 0);` -/
def readLoop (fd : Int) (size : SizeT) (n : Int) (buf : Mem) (k : κ) : List ε → Run κ ε
  | [] =>
    if toSizeT n = size then ⟨[], .returned n, buf, k, []⟩
    else ⟨[⟨fd, n, (size - toSizeT n).val, none⟩], .blocked, buf, k, []⟩
  | e :: es =>
    if toSizeT n = size then ⟨[], .returned n, buf, k, e :: es⟩
    else
      let len := (size - toSizeT n).val
      let a := d.answer k e len
      let c : Call := ⟨fd, n, len, some a.1⟩
      let buf' := store buf n a.1.bytes
      if fitsSsize (n + a.1.ret) then (readLoop fd size (n + a.1.ret) buf' a.2 es).after c
      else ⟨[c], .undefined, buf', a.2, es⟩

/-- The calls of `readS`, up to the value of `n` they leave. -/
def readCalls (fd : Int) (buffer : Mem) (size : SizeT) (readUntil : Bool) (k : κ) : List ε → Run κ ε
  | [] => ⟨[⟨fd, 0, size.val, none⟩], .blocked, buffer, k, []⟩
  | e :: es =>
    let a := d.answer k e size.val
    let c : Call := ⟨fd, 0, size.val, some a.1⟩
    let n := a.1.ret
    let buf' := store buffer 0 a.1.bytes
    if fitsSsize n then
      (if toSizeT n ≠ size ∧ readUntil = true then readLoop d fd size n buf' a.2 es
        else ⟨[], .returned n, buf', a.2, es⟩).after c
    else ⟨[c], .undefined, buf', a.2, es⟩

/-- `if(has_crc) return check_CRC(buffer, size) ? n : -1; return n;`, as an `int`. -/
def retval (hasCrc : Bool) (size : SizeT) (buf : Mem) (n : Int) : Int :=
  if hasCrc then (if checkCrc buf (toInt size.val) then toInt n else -1) else toInt n

/-- The body all three clients share. -/
def readBody (fd : Int) (buffer : Mem) (size : SizeT) (hasCrc readUntil : Bool) (k : κ) (es : List ε) : Run κ ε :=
  let r := readCalls d fd buffer size readUntil k es
  match r.status with
  | .returned n => { r with status := .returned (retval hasCrc size r.buf n) }
  | _ => r

end

/-- `return -1;` -/
def notConnected {κ ε : Type} (buffer : Mem) (k : κ) (es : List ε) : Run κ ε := ⟨[], .returned (-1), buffer, k, es⟩

def TCP.readS (c : Client) (buffer : Mem) (size : SizeT) (hasCrc readUntil : Bool) (inbox : List Byte)
    (es : List Answer) : Run (List Byte) Answer :=
  if c.isConnected then readBody stream c.fd buffer size hasCrc readUntil inbox es else notConnected buffer inbox es

def Serial.readS (c : Client) (buffer : Mem) (size : SizeT) (hasCrc readUntil : Bool) (inbox : List Byte)
    (es : List Answer) : Run (List Byte) Answer :=
  if c.isConnected then readBody stream c.fd buffer size hasCrc readUntil inbox es else notConnected buffer inbox es

/-- The clients of a byte stream. -/
inductive StreamClient where
  | tcp
  | serial
  deriving DecidableEq, Repr

/-- The virtual call. -/
def StreamClient.readS : StreamClient → Client → Mem → SizeT → Bool → Bool → List Byte → List Answer →
    Run (List Byte) Answer
  | .tcp => TCP.readS
  | .serial => Serial.readS

/-- Reads whether or not the client is connected; `kernel` is `m_addr_to` afterwards. -/
def UDP.readS (c : Client) (buffer : Mem) (size : SizeT) (hasCrc readUntil : Bool) (es : List Dgram) :
    Run SockAddr Dgram :=
  readBody datagrams c.fd buffer size hasCrc readUntil c.addrTo es

/-! ## `writeS` -/

structure Sent where
  fd : Int
  bytes : List Byte
  dst : Option SockAddr
  deriving DecidableEq, Repr

/-- What a `writeS` leaves: its value, the caller's buffer, and what the system call was
    given, if one was made. -/
structure Written where
  ret : Int
  buffer : Mem
  sent : Option Sent

/-- `*(uint16_t *)((uint8_t *)buffer + size) = CRC((uint8_t *)buffer, size);` -/
def withTrailer (buffer : Mem) (size : SizeT) : Mem :=
  store16 buffer size.val (crc sCrctable buffer (toInt size.val))

/-- `size + 2 * add_crc`. -/
def wireSize (size : SizeT) (addCrc : Bool) : SizeT := size + (if addCrc then 2 else 0)

/-- The call that hands `buffer` to the kernel; `accept` is what it returns for the bytes
    it is given. -/
def handOver (accept : List Byte → Int) (fd : Int) (dst : Option SockAddr) (buffer : Mem) (len : SizeT) : Written :=
  let bytes := load buffer 0 len.val
  ⟨toInt (accept bytes), buffer, some ⟨fd, bytes, dst⟩⟩

def TCP.writeS (c : Client) (accept : List Byte → Int) (buffer : Mem) (size : SizeT) (addCrc : Bool) : Written :=
  if !c.isConnected then ⟨-1, buffer, none⟩
  else
    let buffer := if addCrc then withTrailer buffer size else buffer
    handOver accept c.fd none buffer (wireSize size addCrc)

def Serial.writeS (c : Client) (accept : List Byte → Int) (buffer : Mem) (size : SizeT) (addCrc : Bool) : Written :=
  if c.isConnected then
    let buffer := if addCrc then withTrailer buffer size else buffer
    handOver accept c.fd none buffer (wireSize size addCrc)
  else ⟨-1, buffer, none⟩

def StreamClient.writeS : StreamClient → Client → (List Byte → Int) → Mem → SizeT → Bool → Written
  | .tcp => TCP.writeS
  | .serial => Serial.writeS

/-- Sends the two bytes for the trailer, but stores none. -/
def UDP.writeS (c : Client) (accept : List Byte → Int) (buffer : Mem) (size : SizeT) (addCrc : Bool) : Written :=
  handOver accept c.fd (some c.addrTo) buffer (wireSize size addCrc)

end ComClient.Transport
