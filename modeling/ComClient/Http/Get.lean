/-
  ComClient.Http.Get — `HTTP::get` (`src/http_client.cpp`).

  The calls that `post` makes, in another order: the buffer is allocated first, with the
  `n` of the caller, and the default is put in its place after the request has been sent.
  No status is looked for.
-/

import ComClient.Http.Request

namespace ComClient.Http

open ComClient.Transport ComClient.Libc

def mHeaderGet : String :=
  "GET %s HTTP/1.1\nHost: %s\nUser-Agent: aightech\nAccept: */*\n\n"

def getHeader (page ip : List Byte) : List Byte := printf mHeaderGet.toList [.str page, .str ip]

/-- `get` from its `strstr` on; the buffer holds the string `s`. -/
def getParse (s : List Byte) : Outcome :=
  match strstr blankLine s with
  | none => .threw (.logError (message "Malformed HTTP response: no header delimiter"))
  | some body => .returned (body.drop 4)

/-- `get` from the terminator on. -/
def getResponse (n bytesRead : Int) (buffer : Block) : Outcome :=
  match terminate n bytesRead buffer with
  | none => .undefined
  | some buffer =>
    match cstring buffer with
    | none => .undefined
    | some s => getParse s

/-- What becomes of a `readS` of `size` bytes into a block of `room` bytes. -/
def getOutcome (room : Nat) (size : Int) (r : Run (List Byte) Answer) : Outcome :=
  match r.status, blockOf room r with
  | .blocked, _ => .blocked
  | .returned bytesRead, some buffer => getResponse size bytesRead buffer
  | _, _ => .undefined

/-- `new char[n]` throws where `n` is negative, the default included. -/
def HTTP.get (h : HTTP) (accept : List Byte → Int) (heap : Mem) (page : CStr) (n : Int) (inbox : List Byte)
    (es : List Answer) : Posted :=
  if n < 0 then ⟨h.mem, [], .threw .badAlloc, inbox, es⟩
  else
    let m := snprintf h.mem headerBound (getHeader page.text h.ip.text)
    match writeHeader h.tcp accept m with
    | none => ⟨m, [], .undefined, inbox, es⟩
    | some w =>
      let r := TCP.readS h.tcp heap (toSizeT (roomFor n)) false (decide (n ≠ -1)) inbox es
      ⟨m, w.sent.toList, getOutcome n.toNat (roomFor n) r, r.kernel, r.rest⟩

/-! ## What a call does -/

/-- The end of `post` is `get`'s. -/
theorem postParse_ok {buffer codeStr : Block} {s c : List Byte} (hc : strstr httpVersion s = some c)
    (hcode : toInt (strtol (c.drop 9)) = 200) (hthree : three buffer (s.length - c.length + 9) = some codeStr) :
    postParse buffer s = getParse s := by
  unfold postParse getParse
  simp only [hc, hthree, hcode]
  rfl

theorem getHeader_nonzero (page ip : CStr) : 0 ∉ getHeader page.text ip.text := by
  refine printf_nonzero (by decide +kernel) ?_
  intro a ha
  simp only [List.mem_cons, List.not_mem_nil, or_false] at ha
  rcases ha with rfl | rfl
  · exact page.text_nonzero
  · exact ip.text_nonzero

theorem roomFor_of_nonneg {n : Int} (h : 0 ≤ n) : roomFor n = n := if_neg (by omega)

/-- The request does not bear on what is read. -/
theorem get_outcome (h : HTTP) (accept : List Byte → Int) (heap : Mem) (page : CStr) {n : Int} (hn : 0 ≤ n)
    (inbox : List Byte) (es : List Answer) :
    (h.get accept heap page n inbox es).outcome =
      getOutcome n.toNat n (TCP.readS h.tcp heap (toSizeT n) false true inbox es) := by
  obtain ⟨len, hlen⟩ := strlen_snprintf h.mem (show 0 < headerBound by decide) (getHeader page.text h.ip.text)
  have huntil : decide (n ≠ -1) = true := decide_eq_true (by omega)
  unfold HTTP.get
  simp [writeHeader, hlen, roomFor_of_nonneg hn, huntil, Int.not_lt.mpr hn]

/-- A call sends its request. -/
theorem get_sent {h : HTTP} (htcp : h.tcp.isConnected = true) {page : CStr}
    (hfits : (getHeader page.text h.ip.text).length < headerSize) (accept : List Byte → Int) (heap : Mem) {n : Int}
    (hn : 0 ≤ n) (inbox : List Byte) (es : List Answer) :
    (h.get accept heap page n inbox es).sent.flatMap Sent.bytes = getHeader page.text h.ip.text := by
  have hroom : (getHeader page.text h.ip.text).length < headerBound := Nat.lt_trans hfits (by decide)
  have hlen := strlen_text (load_snprintf (m := h.mem) hroom) (getHeader_nonzero page h.ip) hroom
  have hval : (toSizeT (getHeader page.text h.ip.text).length).val = (getHeader page.text h.ip.text).length := by
    have hsmall : (getHeader page.text h.ip.text).length < 2024 := hfits
    exact toSizeT_natCast (by omega)
  unfold HTTP.get
  rw [if_neg (by omega)]
  simp only [writeHeader, hlen, Option.map_some, writeS_sent htcp, hval, load_snprintf_text hroom, Option.toList_some,
    List.flatMap_cons, List.flatMap_nil, List.append_nil]

end ComClient.Http
