/-
  ComClient.Http.Code — `HTTP::post` (`src/http_client.cpp`).

  The members that a call uses are the TCP client's, `m_ip`, and the stretch of memory that
  begins with `m_header`; `m_content_length` lies right behind the 2024 bytes of
  `m_header`, and `snprintf` is told that there are 2048. The format strings are copied once,
  by the constructor.

  A buffer from `new char[n]` is a `Block`: a byte that the call has not stored is none.
  Looking at such a byte, or beyond the block, has no defined outcome; a copy of it in a
  message stays none.
-/

import ComClient.Libc.Text
import ComClient.Transport.ReadLoop

namespace ComClient.Http

open ComClient.Transport ComClient.Libc

/-! ## The object -/

/-- `sizeof(m_header)` -/
def headerSize : Nat := 2024

/-- The bound that the calls of `snprintf` are given. -/
def headerBound : Nat := 2048

def mHeaderPost : String :=
  "POST %s HTTP/1.1\nHost: %s\nUser-Agent: aightech\nAccept: */*\n\n"

def mHeaderPostWithData : String :=
  "POST %s HTTP/1.1\nHost: %s\nUser-Agent: aightech\nAccept: */*\nContent-Length: %d\nContent-Type: application/x-www-form-urlencoded\n\n"

structure HTTP where
  tcp : Client
  /-- `m_ip.c_str()` -/
  ip : CStr
  /-- From `m_header` on. -/
  mem : Mem

def localhost : HTTP := ⟨someClient, CStr.of (ascii "localhost") (by decide), fun _ => 0⟩

def load32 (m : Mem) (o : Int) : BitVec 32 := m (o + 3) ++ m (o + 2) ++ m (o + 1) ++ m o

def store32 (m : Mem) (o : Int) (v : BitVec 32) : Mem :=
  store m o [v.setWidth 8, (v >>> 8).setWidth 8, (v >>> 16).setWidth 8, (v >>> 24).setWidth 8]

/-- `m_content_length` -/
def contentLength (m : Mem) : Int := (load32 m headerSize).toInt

/-! ## The request -/

/-- `m_content_length = content ? strlen(content) : 0;` -/
def countContent (content : Option CStr) (m : Mem) : Mem :=
  store32 m headerSize (BitVec.ofNat 32 ((content.map CStr.len).getD 0))

/-- What the two formats make of a request. -/
def header (withData : Bool) (page ip : List Byte) (length : Int) : List Byte :=
  if withData then printf mHeaderPostWithData.toList [.str page, .str ip, .int length]
  else printf mHeaderPost.toList [.str page, .str ip]

/-- `snprintf(m_header, 2048, ...)` -/
def formatHeader (withData : Bool) (page ip : CStr) (m : Mem) : Mem :=
  snprintf m headerBound (header withData page.text ip.text (contentLength m))

/-- `writeS(m_header, strlen(m_header));`, without a defined meaning if the terminator is gone. -/
def writeHeader (tcp : Client) (accept : List Byte → Int) (m : Mem) : Option Written :=
  (strlen m headerBound).map fun n : Nat => TCP.writeS tcp accept m (toSizeT n) false

/-- `writeS(content, m_content_length);` Of a null pointer `send` takes nothing. -/
def writeContent (tcp : Client) (accept : List Byte → Int) (content : Option CStr) (length : Int) : List Sent :=
  match content with
  | some content => (TCP.writeS tcp accept content.mem (toSizeT length) false).sent.toList
  | none => []

/-! ## The response -/

abbrev Block := List (Option Byte)

inductive Thrown where
  /-- `std::bad_alloc`, or what derives from it: `new char[n]` has failed. -/
  | badAlloc
  /-- `throw log_error(text)` -/
  | logError (text : Block)
  deriving DecidableEq, Repr

inductive Outcome where
  | returned (body : List Byte)
  | threw (thrown : Thrown)
  /-- In `recv`. -/
  | blocked
  | undefined
  deriving DecidableEq, Repr

def message (s : String) : Block := (ascii s).map some

/-- The buffer that the calls of a `readS` leave, if all of them kept to it. -/
def blockOf (n : Nat) (r : Run (List Byte) Answer) : Option Block :=
  if r.calls.all fun c => decide (0 ≤ c.off ∧ c.off + c.bytes.length ≤ n) then
    some ((List.range n).map fun i : Nat =>
      if r.calls.any fun c => decide (c.off ≤ i ∧ i < c.off + c.bytes.length) then some (r.buf i) else none)
  else none

/-- `if(bytes_read > 0 && bytes_read < n) buffer[bytes_read] = '\0'; else if(bytes_read >= n) buffer[n - 1] = '\0';` -/
def terminate (n bytesRead : Int) (buffer : Block) : Option Block :=
  if 0 < bytesRead ∧ bytesRead < n then some (buffer.set bytesRead.toNat (some 0))
  else if n ≤ bytesRead then (if 1 ≤ n then some (buffer.set (n - 1).toNat (some 0)) else none)
  else some buffer

/-- The string a buffer begins with, if it holds one. -/
def cstring : Block → Option (List Byte)
  | some b :: rest => if b = 0 then some [] else (cstring rest).map (b :: ·)
  | _ => none

/-- `std::string(buffer + i, 3)` -/
def three (buffer : Block) (i : Nat) : Option Block :=
  if i + 3 ≤ buffer.length then some ((buffer.drop i).take 3) else none

def httpVersion : List Byte := ascii "HTTP/1.1 "

/-- The end of the headers, `"\r\n\r\n"`. -/
def blankLine : List Byte := crlf ++ crlf

/-- `post` from its first `strstr` on; the buffer holds the string `s`. -/
def postParse (buffer : Block) (s : List Byte) : Outcome :=
  match strstr httpVersion s with
  | none => .threw (.logError (message "HTTP/1.1 not found in response"))
  | some c =>
    let code := toInt (strtol (c.drop 9))
    match three buffer (s.length - c.length + 9) with
    | none => .undefined
    | some codeStr =>
      if code ≠ 200 then .threw (.logError (message "HTTP code " ++ codeStr))
      else
        match strstr blankLine s with
        | none => .threw (.logError (message "Malformed HTTP response: no header delimiter"))
        | some body => .returned (body.drop 4)

/-- `post` from the terminator on. -/
def postResponse (n bytesRead : Int) (buffer : Block) : Outcome :=
  match terminate n bytesRead buffer with
  | none => .undefined
  | some buffer =>
    match cstring buffer with
    | none => .undefined
    | some s => postParse buffer s

/-! ## `post` -/

/-- What a call leaves, and what it sent. -/
structure Posted where
  mem : Mem
  sent : List Sent
  outcome : Outcome
  inbox : List Byte
  rest : List Answer

/-- What becomes of a `readS` of `size` bytes into a new block. -/
def postOutcome (size : Int) (r : Run (List Byte) Answer) : Outcome :=
  match r.status, blockOf size.toNat r with
  | .blocked, _ => .blocked
  | .returned bytesRead, some buffer => postResponse size bytesRead buffer
  | _, _ => .undefined

/-- `if(n == -1) n = 2048;` -/
def roomFor (n : Int) : Int := if n = -1 then 2048 else n

/-- `post` from `read_until` on; `heap` is the memory that `new` finds. -/
def postRead (tcp : Client) (heap : Mem) (n : Int) (inbox : List Byte) (es : List Answer) :
    Outcome × List Byte × List Answer :=
  if roomFor n < 0 then (.threw .badAlloc, inbox, es)
  else
    let r := TCP.readS tcp heap (toSizeT (roomFor n)) false (decide (n ≠ -1)) inbox es
    (postOutcome (roomFor n) r, r.kernel, r.rest)

def HTTP.post (h : HTTP) (accept : List Byte → Int) (heap : Mem) (page : CStr) (content : Option CStr) (n : Int)
    (inbox : List Byte) (es : List Answer) : Posted :=
  let m := countContent content h.mem
  let m := formatHeader (decide (0 < contentLength m)) page h.ip m
  match writeHeader h.tcp accept m with
  | none => ⟨m, [], .undefined, inbox, es⟩
  | some w =>
    let sent := w.sent.toList ++
      if 0 < contentLength m then writeContent h.tcp accept content (contentLength m) else []
    let r := postRead h.tcp heap n inbox es
    ⟨m, sent, r.1, r.2.1, r.2.2⟩

end ComClient.Http
