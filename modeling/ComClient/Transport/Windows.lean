/-
  ComClient.Transport.Windows — `readS` and `writeS` of the TCP and serial clients as
  Windows builds them (`src/src/tcp_client.cpp`, `serial_client.cpp`, the `_WIN32` branches).

  The running total `n` and what `ReadFile` is asked for are `DWORD`s, of 32 bits, where
  the Linux branches have a `ssize_t` and a `size_t`; and a call that fails throws. The
  stream behind the descriptor is the one of `ComClient.Transport.Code`.

  - `windows_agrees_iff`: below 2^32 bytes a read does what the Linux branch does, if and only
    if none of its calls fails.
  - `windows_keeps_the_stream`: whatever fails, it stores inside the buffer, from its start,
    in order and without a gap; and to read 2^32 bytes or more until all are there
    never returns.
  - `windows_write_agrees_iff`: a write puts the same bytes on the wire if and only if they
    are fewer than 2^32.
-/

import ComClient.Transport.ReadUntil

namespace ComClient.Transport.Windows

/-- `DWORD` -/
abbrev DWord := Fin (2 ^ 32)

theorem dword_pos : 0 < 2 ^ 32 := by decide

theorem dword_lt_sizeT : 2 ^ 32 < 2 ^ 64 := by decide

/-- The conversion of a `size_t` to `DWORD`. -/
def toDWord (n : SizeT) : DWord := ⟨n.val % 2 ^ 32, Nat.mod_lt _ dword_pos⟩

/-- The conversion of a `DWORD` to `size_t`. -/
def ofDWord (n : DWord) : SizeT := ⟨n.val, Nat.lt_trans n.isLt dword_lt_sizeT⟩

inductive Status where
  | returned (n : Int)
  | threw (text : String)
  | blocked
  deriving DecidableEq, Repr

structure Run where
  calls : List Call
  status : Status
  buf : Mem
  inbox : List Byte
  rest : List Answer

def Run.after (c : Call) (r : Run) : Run := { r with calls := c :: r.calls }

def couldNotRead : Status := .threw "Could not read the serial port."

/-! ## `readS` -/

/-- `while(n != size) { .. ReadFile(.., buffer + n, size - n, &n2, ..) .. n += n2; }` -/
def readLoop (fd : Int) (size : SizeT) (n : DWord) (buf : Mem) (inbox : List Byte) : List Answer → Run
  | [] =>
    if ofDWord n = size then ⟨[], .returned n.val, buf, inbox, []⟩
    else ⟨[⟨fd, n.val, (toDWord (size - ofDWord n)).val, none⟩], .blocked, buf, inbox, []⟩
  | e :: es =>
    if ofDWord n = size then ⟨[], .returned n.val, buf, inbox, e :: es⟩
    else
      let len := (toDWord (size - ofDWord n)).val
      let a := stream.answer inbox e len
      let c : Call := ⟨fd, n.val, len, some a.1⟩
      match a.1 with
      | .fail => ⟨[c], couldNotRead, buf, a.2, es⟩
      | .data bytes =>
        (readLoop fd size (n + toDWord (toSizeT bytes.length)) (store buf n.val bytes) a.2 es).after c

def readCalls (fd : Int) (buffer : Mem) (size : SizeT) (readUntil : Bool) (inbox : List Byte) : List Answer → Run
  | [] => ⟨[⟨fd, 0, (toDWord size).val, none⟩], .blocked, buffer, inbox, []⟩
  | e :: es =>
    let len := (toDWord size).val
    let a := stream.answer inbox e len
    let c : Call := ⟨fd, 0, len, some a.1⟩
    match a.1 with
    | .fail => ⟨[c], couldNotRead, buffer, a.2, es⟩
    | .data bytes =>
      let n := toDWord (toSizeT bytes.length)
      let buf := store buffer 0 bytes
      (if ofDWord n ≠ size ∧ readUntil = true then readLoop fd size n buf a.2 es
        else ⟨[], .returned n.val, buf, a.2, es⟩).after c

def readBody (c : Client) (buffer : Mem) (size : SizeT) (hasCrc readUntil : Bool) (inbox : List Byte)
    (es : List Answer) : Run :=
  if c.isConnected then
    let r := readCalls c.fd buffer size readUntil inbox es
    match r.status with
    | .returned n => { r with status := .returned (retval hasCrc size r.buf n) }
    | _ => r
  else ⟨[], .returned (-1), buffer, inbox, es⟩

def TCP.readS : Client → Mem → SizeT → Bool → Bool → List Byte → List Answer → Run := readBody

def Serial.readS : Client → Mem → SizeT → Bool → Bool → List Byte → List Answer → Run := readBody

/-- The virtual call. -/
def readS : StreamClient → Client → Mem → SizeT → Bool → Bool → List Byte → List Answer → Run
  | .tcp => TCP.readS
  | .serial => Serial.readS

/-! ## `writeS` -/

structure Written where
  status : Status
  buffer : Mem
  sent : Option Sent

/-- `WriteFile` is asked for `size + 2 * add_crc` bytes, as a `DWORD`; it has written so many,
    or has failed. -/
def handOver (writeFile : List Byte → Option DWord) (failed : Status) (fd : Int) (buffer : Mem) (len : SizeT) : Written :=
  let bytes := load buffer 0 (toDWord len).val
  ⟨((writeFile bytes).map fun n => .returned (toInt n.val)).getD failed, buffer, some ⟨fd, bytes, none⟩⟩

def TCP.writeS (c : Client) (writeFile : List Byte → Option DWord) (buffer : Mem) (size : SizeT) (addCrc : Bool) : Written :=
  if !c.isConnected then ⟨.returned (-1), buffer, none⟩
  else
    let buffer := if addCrc then withTrailer buffer size else buffer
    handOver writeFile (.returned (-1)) c.fd buffer (wireSize size addCrc)

def Serial.writeS (c : Client) (writeFile : List Byte → Option DWord) (buffer : Mem) (size : SizeT) (addCrc : Bool) :
    Written :=
  if c.isConnected then
    let buffer := if addCrc then withTrailer buffer size else buffer
    handOver writeFile (.threw "Could not write the serial port.") c.fd buffer (wireSize size addCrc)
  else ⟨.returned (-1), buffer, none⟩

def writeS : StreamClient → Client → (List Byte → Option DWord) → Mem → SizeT → Bool → Written
  | .tcp => TCP.writeS
  | .serial => Serial.writeS

/-! ## The calls -/

@[simp] theorem Run.after_calls (c : Call) (r : Run) : (r.after c).calls = c :: r.calls := rfl
@[simp] theorem Run.after_status (c : Call) (r : Run) : (r.after c).status = r.status := rfl
@[simp] theorem Run.after_buf (c : Call) (r : Run) : (r.after c).buf = r.buf := rfl
@[simp] theorem Run.after_inbox (c : Call) (r : Run) : (r.after c).inbox = r.inbox := rfl
@[simp] theorem Run.after_rest (c : Call) (r : Run) : (r.after c).rest = r.rest := rfl

/-- What is asked for at `n`. -/
def room (size : SizeT) (n : DWord) : Nat := (toDWord (size - ofDWord n)).val

/-- The total after `k` bytes more. -/
def plus (n : DWord) (k : Nat) : DWord := n + toDWord (toSizeT k)

/-- A call at `n`, and more while `go` and `n != size`. -/
def callsFrom (fd : Int) (size : SizeT) (go : Bool) (n : DWord) (buf : Mem) (inbox : List Byte) : List Answer → Run
  | [] => ⟨[⟨fd, n.val, room size n, none⟩], .blocked, buf, inbox, []⟩
  | e :: es =>
    let a := stream.answer inbox e (room size n)
    let c : Call := ⟨fd, n.val, room size n, some a.1⟩
    match a.1 with
    | .fail => ⟨[c], couldNotRead, buf, a.2, es⟩
    | .data bytes =>
      let n' := plus n bytes.length
      let buf' := store buf n.val bytes
      if ofDWord n' ≠ size ∧ go = true then (callsFrom fd size go n' buf' a.2 es).after c
      else ⟨[c], .returned n'.val, buf', a.2, es⟩

theorem readLoop_done {fd : Int} {size : SizeT} {n : DWord} (h : ofDWord n = size) (buf : Mem) (inbox : List Byte)
    (es : List Answer) : readLoop fd size n buf inbox es = ⟨[], .returned n.val, buf, inbox, es⟩ := by
  cases es <;> simp only [readLoop, h, if_true]

theorem readLoop_eq (fd : Int) (size : SizeT) (n : DWord) (h : ofDWord n ≠ size) (buf : Mem) (inbox : List Byte)
    (es : List Answer) : readLoop fd size n buf inbox es = callsFrom fd size true n buf inbox es := by
  induction es generalizing n buf inbox with
  | nil => simp only [readLoop, callsFrom, h, if_false, room]
  | cons e es ih =>
    simp only [readLoop, callsFrom, h, if_false, and_true, room, plus]
    split
    · rfl
    · split
      · rw [ih _ ‹_›]
      · rw [readLoop_done (not_not.mp ‹_›)]
        rfl

theorem room_zero (size : SizeT) : room size 0 = (toDWord size).val := by
  have h0 : size - ofDWord 0 = size := sub_zero size
  rw [room, h0]

theorem readCalls_eq (fd : Int) (buffer : Mem) (size : SizeT) (readUntil : Bool) (inbox : List Byte) (es : List Answer) :
    readCalls fd buffer size readUntil inbox es = callsFrom fd size readUntil 0 buffer inbox es := by
  have hplus : ∀ k, plus 0 k = toDWord (toSizeT k) := fun k => zero_add _
  cases es with
  | nil =>
    simp only [readCalls, callsFrom, room_zero]
    rfl
  | cons e es =>
    simp only [readCalls, callsFrom, room_zero, hplus]
    split
    · rfl
    · split
      · rename_i h
        rw [readLoop_eq _ _ _ h.1, h.2]
        rfl
      · rfl

/-! ## Sizes -/

theorem toDWord_val (n : SizeT) : (toDWord n).val = n.val % 2 ^ 32 := rfl

theorem room_val {size : SizeT} {n : DWord} (h : n.val ≤ size.val) : room size n = (size.val - n.val) % 2 ^ 32 := by
  have hsize := size.isLt
  have hsub : (size - ofDWord n).val = size.val - n.val := by
    rw [Fin.sub_def]
    simp only [ofDWord]
    omega
  rw [room, toDWord_val, hsub]

theorem plus_val {n : DWord} {k : Nat} (hk : k < 2 ^ 32) : (plus n k).val = (n.val + k) % 2 ^ 32 := by
  have hsize : (toSizeT k).val = k := by
    have h := toSizeT_val k
    omega
  rw [plus, Fin.val_add, toDWord_val, hsize]
  omega

/-- In a buffer of less than 2^32 bytes the total is what was received. -/
theorem plus_of_small {size : SizeT} {n : DWord} {k : Nat} (hsize : size.val < 2 ^ 32) (hn : n.val ≤ size.val)
    (hk : k ≤ room size n) : (plus n k).val = n.val + k ∧ n.val + k ≤ size.val := by
  rw [room_val hn] at hk
  have hval := plus_val (n := n) (k := k) (by omega)
  omega

theorem ofDWord_eq_iff {size : SizeT} {n : DWord} : ofDWord n = size ↔ n.val = size.val := by
  rw [Fin.ext_iff]
  rfl

/-! ## Against the Linux branch -/

/-- The two ended in the same way. -/
def SameEnd : Status → Transport.Status → Prop
  | .returned m, .returned n => m = n
  | .blocked, .blocked => True
  | _, _ => False

/-- They made the same calls, with the same results, and left the same. -/
structure Agrees (w : Run) (l : Transport.Run (List Byte) Answer) : Prop where
  calls : w.calls = l.calls
  ended : SameEnd w.status l.status
  buf : w.buf = l.buf
  inbox : w.inbox = l.kernel
  rest : w.rest = l.rest

theorem Agrees.after {w : Run} {l : Transport.Run (List Byte) Answer} (h : Agrees w l) (c : Call) :
    Agrees (w.after c) (l.after c) := ⟨congrArg (c :: ·) h.calls, h.ended, h.buf, h.inbox, h.rest⟩

theorem toSizeT_ofDWord (n : DWord) : toSizeT n.val = ofDWord n := by
  have hn := n.isLt
  have hval := toSizeT_val n.val
  refine Fin.eq_of_val_eq ?_
  simp only [ofDWord]
  omega

/-- From the same total on, over the same stream: nothing fails and the two agree, or
    something fails and the Windows branch throws. -/
theorem agrees_or_threw (fd : Int) {size : SizeT} (go : Bool) (hsize : size.val < 2 ^ 32) {n : DWord}
    (hn : n.val ≤ size.val) (buf : Mem) (inbox : List Byte) (es : List Answer) :
    (failures (Transport.callsFrom stream fd size go n.val buf inbox es).calls = 0 ∧
        Agrees (callsFrom fd size go n buf inbox es) (Transport.callsFrom stream fd size go n.val buf inbox es)) ∨
      (failures (Transport.callsFrom stream fd size go n.val buf inbox es).calls ≠ 0 ∧
        (callsFrom fd size go n buf inbox es).status = couldNotRead) := by
  have hroom : ∀ {n : DWord}, n.val ≤ size.val → (size - toSizeT n.val).val = room size n := by
    intro n hn
    rw [toSizeT_ofDWord, room, toDWord_val]
    have hlt : (size - ofDWord n).val ≤ size.val := by
      rw [Fin.sub_def]
      simp only [ofDWord]
      omega
    omega
  induction es generalizing n buf inbox with
  | nil =>
    left
    rw [callsFrom, Transport.callsFrom, hroom hn]
    exact ⟨rfl, rfl, trivial, rfl, rfl, rfl⟩
  | cons e es ih =>
    have hwithin := stream.within inbox e (room size n)
    rw [callsFrom, Transport.callsFrom, hroom hn]
    generalize stream.answer inbox e (room size n) = a at hwithin ⊢
    obtain ⟨res, inbox'⟩ := a
    cases res with
    | fail =>
      have hfailed : ∀ cs, failures (⟨fd, n.val, room size n, some .fail⟩ :: cs) ≠ 0 := by
        intro cs
        rw [failures_cons]
        exact Nat.succ_ne_zero _
      right
      refine ⟨?_, rfl⟩
      dsimp only
      split
      · split
        · exact hfailed _
        · exact hfailed _
      · exact hfailed _
    | data bytes =>
      have hbytes : bytes.length ≤ room size n := hwithin
      obtain ⟨hplus, hle⟩ := plus_of_small hsize hn hbytes
      have hcast : (n.val : Int) + (Recv.data bytes).ret = ((plus n bytes.length).val : Int) := by
        rw [hplus]
        exact (Int.natCast_add _ _).symm
      have hfits : fitsSsize ((plus n bytes.length).val : Int) = true := by
        rw [fitsSsize_iff]
        omega
      dsimp only
      rw [hcast, if_pos hfits, toSizeT_ofDWord]
      split
      · rw [Transport.Run.after_calls, failures_cons]
        rcases ih (n := plus n bytes.length) (by omega) (store buf n.val bytes) inbox' with ⟨hnone, hagrees⟩ | ⟨hsome, hthrew⟩
        · exact Or.inl ⟨hnone, hagrees.after _⟩
        · exact Or.inr ⟨hsome, hthrew⟩
      · exact Or.inl ⟨rfl, rfl, rfl, rfl, rfl, rfl⟩

theorem readS_eq (t : StreamClient) (c : Client) (buffer : Mem) (size : SizeT) (hasCrc readUntil : Bool)
    (inbox : List Byte) (es : List Answer) :
    readS t c buffer size hasCrc readUntil inbox es = readBody c buffer size hasCrc readUntil inbox es := by
  cases t <;> rfl

/-- `if(has_crc) return check_CRC(buffer, size) ? n : -1; return n;` -/
def finish (hasCrc : Bool) (size : SizeT) (r : Run) : Run :=
  match r.status with
  | .returned n => { r with status := .returned (retval hasCrc size r.buf n) }
  | _ => r

theorem readBody_connected {c : Client} (hc : c.isConnected = true) (buffer : Mem) (size : SizeT) (hasCrc readUntil : Bool)
    (inbox : List Byte) (es : List Answer) :
    readBody c buffer size hasCrc readUntil inbox es =
      finish hasCrc size (callsFrom c.fd size readUntil 0 buffer inbox es) := by
  rw [readBody, if_pos hc, readCalls_eq]
  rfl

@[simp] theorem finish_calls (hasCrc : Bool) (size : SizeT) (r : Run) : (finish hasCrc size r).calls = r.calls := by
  unfold finish; split <;> rfl

@[simp] theorem finish_buf (hasCrc : Bool) (size : SizeT) (r : Run) : (finish hasCrc size r).buf = r.buf := by
  unfold finish; split <;> rfl

@[simp] theorem finish_inbox (hasCrc : Bool) (size : SizeT) (r : Run) : (finish hasCrc size r).inbox = r.inbox := by
  unfold finish; split <;> rfl

@[simp] theorem finish_rest (hasCrc : Bool) (size : SizeT) (r : Run) : (finish hasCrc size r).rest = r.rest := by
  unfold finish; split <;> rfl

theorem finish_returned {hasCrc : Bool} {size : SizeT} {r : Run} {ret : Int} :
    (finish hasCrc size r).status = .returned ret ↔ ∃ n, r.status = .returned n ∧ ret = retval hasCrc size r.buf n := by
  rw [finish]
  obtain ⟨calls, status, buf, inbox, rest⟩ := r
  cases status with
  | returned n => simp [eq_comm]
  | threw text => simp
  | blocked => simp

theorem finish_threw {r : Run} (h : r.status = couldNotRead) (hasCrc : Bool) (size : SizeT) :
    (finish hasCrc size r).status = couldNotRead := by
  rw [finish, h]
  exact h

theorem sameEnd_finish {w : Run} {fd : Int} {buffer : Mem} {size : SizeT} {readUntil : Bool} {inbox : List Byte}
    {es : List Answer} (h : Agrees w (Transport.callsFrom stream fd size readUntil 0 buffer inbox es)) (hasCrc : Bool) :
    SameEnd (finish hasCrc size w).status
      (Transport.readBody stream fd buffer size hasCrc readUntil inbox es).status := by
  have hend := h.ended
  have hbuf := h.buf
  rw [Transport.readBody, Transport.readCalls_eq, finish]
  generalize Transport.callsFrom stream fd size readUntil 0 buffer inbox es = l at hend hbuf ⊢
  obtain ⟨calls, status, buf, inbox', rest⟩ := w
  obtain ⟨calls', status', buf', kernel, rest'⟩ := l
  cases hbuf
  cases status <;> cases status' <;> first | exact congrArg _ hend | exact hend

/-- Below 2^32 bytes, for either client, any stream and any sequence of answers: the Windows
    branch makes the calls of the Linux branch, ends as it does and leaves the same, if and
    only if none of the Linux branch's calls fails. -/
theorem windows_agrees_iff (t : StreamClient) (c : Client) (buffer : Mem) (size : SizeT) (hasCrc readUntil : Bool)
    (inbox : List Byte) (es : List Answer) (hsize : size.val < 2 ^ 32) :
    Agrees (readS t c buffer size hasCrc readUntil inbox es) (t.readS c buffer size hasCrc readUntil inbox es) ↔
      failures (t.readS c buffer size hasCrc readUntil inbox es).calls = 0 := by
  rw [readS_eq, streamClient_readS]
  cases hc : c.isConnected with
  | false =>
    simp only [readBody, hc, Bool.false_eq_true, if_false]
    exact ⟨fun _ => rfl, fun _ => ⟨rfl, rfl, rfl, rfl, rfl⟩⟩
  | true =>
    have hcalls := agrees_or_threw c.fd readUntil hsize (n := 0) (Nat.zero_le _) buffer inbox es
    rw [if_pos rfl, readBody_connected hc, readBody_calls, Transport.readCalls_eq]
    rcases hcalls with ⟨hnone, hagrees⟩ | ⟨hsome, hthrew⟩
    · refine iff_of_true ⟨?_, sameEnd_finish hagrees hasCrc, ?_, ?_, ?_⟩ hnone
      · rw [finish_calls, readBody_calls, Transport.readCalls_eq]
        exact hagrees.calls
      · rw [finish_buf, readBody_buf, Transport.readCalls_eq]
        exact hagrees.buf
      · rw [finish_inbox, readBody_kernel, Transport.readCalls_eq]
        exact hagrees.inbox
      · rw [finish_rest, readBody_rest, Transport.readCalls_eq]
        exact hagrees.rest
    · refine iff_of_false ?_ hsome
      intro h
      have hend := h.ended
      rw [finish_threw hthrew] at hend
      cases hl : (Transport.readBody stream c.fd buffer size hasCrc readUntil inbox es).status <;>
        (rw [hl] at hend; exact hend)

theorem windows_agrees_until_a_call_fails :
    let inbox : List Byte := [1, 2, 3, 4]
    Agrees (readS .serial someClient (fun _ => 0) 3 false true inbox [.upto 1, .upto 5])
      (StreamClient.serial.readS someClient (fun _ => 0) 3 false true inbox [.upto 1, .upto 5]) ∧
    ¬ Agrees (readS .serial someClient (fun _ => 0) 3 false true inbox [.upto 1, .error, .upto 5])
      (StreamClient.serial.readS someClient (fun _ => 0) 3 false true inbox [.upto 1, .error, .upto 5]) :=
  ⟨(windows_agrees_iff .serial someClient (fun _ => 0) 3 false true [1, 2, 3, 4] [.upto 1, .upto 5] (by decide)).mpr
      (by decide),
    fun h => absurd ((windows_agrees_iff .serial someClient (fun _ => 0) 3 false true [1, 2, 3, 4]
      [.upto 1, .error, .upto 5] (by decide)).mp h) (by decide)⟩

/-! ## What reaches the buffer -/

/-- The calls from a total of `n` on, whatever fails. -/
structure Kept (size : SizeT) (go : Bool) (n : DWord) (buf : Mem) (inbox : List Byte) (r : Run) : Prop where
  inside : ∀ c ∈ r.calls, InBuffer size c
  taken : inbox = delivered r.calls ++ r.inbox
  inOrder : size.val < 2 ^ 32 →
    r.buf = store buf n.val (delivered r.calls) ∧ n.val + (delivered r.calls).length ≤ size.val
  ended : ∀ m, r.status = .returned m → size.val < 2 ^ 32 → m = n.val + (delivered r.calls).length
  small : ∀ m, r.status = .returned m → m < 2 ^ 32
  full : ∀ m, r.status = .returned m → go = true → m = size.val

theorem inBuffer_at {size : SizeT} {n : DWord} (hn : n.val ≤ size.val) (fd : Int) (res : Option Recv) :
    InBuffer size ⟨fd, n.val, room size n, res⟩ := by
  have hroom : room size n ≤ size.val - n.val := by
    rw [room_val hn]
    exact Nat.mod_le _ _
  refine ⟨Int.natCast_nonneg _, ?_⟩
  show (n.val : Int) + (room size n : Int) ≤ size.val
  omega

/-- A total never passes the size, be it cut to 32 bits. -/
theorem plus_le {size : SizeT} {n : DWord} {k : Nat} (hn : n.val ≤ size.val) (hk : k ≤ room size n) :
    (plus n k).val ≤ size.val := by
  have hroom := room_val hn
  have hval := plus_val (n := n) (k := k) (by omega)
  omega

/-- A call that stops: there is one call, and what it received is all there is. -/
theorem Kept.single {size : SizeT} {go : Bool} {n : DWord} {buf buf' : Mem} {inbox rest : List Byte} (bytes : List Byte)
    {es : List Answer} {fd : Int} {res : Option Recv} {st : Status} (hn : n.val ≤ size.val)
    (hbytes : bytes.length ≤ room size n) (hres : (res.map Recv.bytes).getD [] = bytes)
    (hbuf : buf' = store buf n.val bytes) (hin : inbox = bytes ++ rest)
    (hst : ∀ m, st = .returned m → m = (plus n bytes.length).val ∧ (go = true → m = size.val)) :
    Kept size go n buf inbox ⟨[⟨fd, n.val, room size n, res⟩], st, buf', rest, es⟩ := by
  have hdel : delivered [⟨fd, n.val, room size n, res⟩] = bytes := by
    rw [delivered_cons, delivered_nil, List.append_nil]
    exact hres
  constructor
  case inside =>
    intro c hc
    rw [List.mem_singleton.mp hc]
    exact inBuffer_at hn fd res
  case taken => rw [hdel, hin]
  case inOrder =>
    intro hsize
    rw [hdel]
    exact ⟨hbuf, (plus_of_small hsize hn hbytes).2⟩
  case ended =>
    intro m hm hsize
    rw [hdel, (hst m hm).1, (plus_of_small hsize hn hbytes).1]
    omega
  case small =>
    intro m hm
    have hlt := (plus n bytes.length).isLt
    rw [(hst m hm).1]
    omega
  case full => exact fun m hm => (hst m hm).2

theorem Kept.after {size : SizeT} {n : DWord} {buf : Mem} {inbox rest bytes : List Byte} {fd : Int} {r : Run}
    (hn : n.val ≤ size.val) (hbytes : bytes.length ≤ room size n) (hin : inbox = bytes ++ rest)
    (h : Kept size true (plus n bytes.length) (store buf n.val bytes) rest r) :
    Kept size true n buf inbox (r.after ⟨fd, n.val, room size n, some (.data bytes)⟩) := by
  have hdel : delivered (r.after ⟨fd, n.val, room size n, some (.data bytes)⟩).calls = bytes ++ delivered r.calls := rfl
  constructor
  case inside =>
    intro c hc
    rcases List.mem_cons.mp hc with rfl | hc
    · exact inBuffer_at hn fd _
    · exact h.inside c hc
  case taken => rw [hdel, List.append_assoc, Run.after_inbox, ← h.taken, hin]
  case inOrder =>
    intro hsize
    obtain ⟨hbuf, hle⟩ := h.inOrder hsize
    have hplus := (plus_of_small hsize hn hbytes).1
    rw [hdel, Run.after_buf, hbuf, hplus, Int.natCast_add, store_store, List.length_append]
    exact ⟨rfl, by omega⟩
  case ended =>
    intro m hm hsize
    have hplus := (plus_of_small hsize hn hbytes).1
    rw [hdel, h.ended m hm hsize, hplus, List.length_append]
    omega
  case small => exact h.small
  case full => exact h.full

theorem callsFrom_kept (fd : Int) {size : SizeT} (go : Bool) {n : DWord} (hn : n.val ≤ size.val) (buf : Mem)
    (inbox : List Byte) (es : List Answer) : Kept size go n buf inbox (callsFrom fd size go n buf inbox es) := by
  induction es generalizing n buf inbox with
  | nil =>
    exact Kept.single [] hn (Nat.zero_le _) rfl (store_nil _ _).symm rfl (fun m hm => by cases hm)
  | cons e es ih =>
    have hwithin := stream.within inbox e (room size n)
    have htaken : inbox = (stream.answer inbox e (room size n)).1.bytes ++ (stream.answer inbox e (room size n)).2 := by
      cases e with
      | upto k => exact (List.take_append_drop _ _).symm
      | error => rfl
    rw [callsFrom]
    generalize stream.answer inbox e (room size n) = a at hwithin htaken ⊢
    obtain ⟨res, inbox'⟩ := a
    cases res with
    | fail => exact Kept.single [] hn (Nat.zero_le _) rfl (store_nil _ _).symm htaken (fun m hm => by cases hm)
    | data bytes =>
      dsimp only
      split
      · rename_i hmore
        rw [hmore.2]
        exact Kept.after hn hwithin htaken (hmore.2 ▸ ih (plus_le hn hwithin) _ _)
      · rename_i hstop
        refine Kept.single bytes hn hwithin rfl rfl htaken ?_
        intro m hm
        cases hm
        refine ⟨rfl, ?_⟩
        intro hgo
        by_contra hne
        exact hstop ⟨fun h => hne (congrArg Nat.cast (ofDWord_eq_iff.mp h)), hgo⟩

/-- For either client, any size, stream and answers: the calls store inside the buffer; the
    bytes taken off the stream stand in order at its start, if it is smaller than 2^32, also
    where a call failed; and a read until all is there that returns has
    the first `size` bytes of the stream, all of them and no more, in less than 2^32 of buffer. -/
theorem windows_keeps_the_stream (t : StreamClient) (c : Client) (buffer : Mem) (size : SizeT) (hasCrc readUntil : Bool)
    (inbox : List Byte) (es : List Answer) :
    let r := readS t c buffer size hasCrc readUntil inbox es
    (∀ x ∈ r.calls, InBuffer size x) ∧
    (∃ taken, inbox = taken ++ r.inbox ∧
      (size.val < 2 ^ 32 → r.buf = store buffer 0 taken ∧ taken.length ≤ size.val)) ∧
    (∀ ret, r.status = .returned ret → c.isConnected = true → readUntil = true →
      size.val < 2 ^ 32 ∧ Intact size inbox ⟨r.calls, .returned ret, r.buf, r.inbox, r.rest⟩ ∧
      ret = retval hasCrc size r.buf size.val) := by
  dsimp only
  rw [readS_eq]
  cases hc : c.isConnected with
  | false =>
    simp only [readBody, hc, Bool.false_eq_true, if_false]
    refine ⟨fun x hx => absurd hx List.not_mem_nil, ⟨[], rfl, fun _ => ⟨(store_nil _ _).symm, Nat.zero_le _⟩⟩, ?_⟩
    exact fun ret _ h => False.elim h
  | true =>
    have h := callsFrom_kept c.fd readUntil (n := 0) (Nat.zero_le size.val) buffer inbox es
    rw [readBody_connected hc]
    generalize callsFrom c.fd size readUntil 0 buffer inbox es = r at h
    rw [finish_calls, finish_buf, finish_inbox, finish_rest]
    refine ⟨h.inside, ⟨delivered r.calls, h.taken, ?_⟩, ?_⟩
    · intro hsize
      obtain ⟨hbuf, hle⟩ := h.inOrder hsize
      exact ⟨hbuf, by omega⟩
    · intro ret hret _ hgo
      obtain ⟨n, hn, rfl⟩ := finish_returned.mp hret
      have hfull := h.full n hn hgo
      have hsize : size.val < 2 ^ 32 := by
        have hsmall := h.small n hn
        omega
      obtain ⟨hbuf, -⟩ := h.inOrder hsize
      have hlen : (delivered r.calls).length = size.val := by
        have hended := h.ended n hn hsize
        have hzero : (0 : DWord).val = 0 := rfl
        omega
      refine ⟨hsize, ⟨?_, ?_, ?_⟩, by rw [hfull]⟩
      · rw [hbuf, h.taken, ← hlen, List.take_left]
        exact load_store_same _ _ _
      · rw [h.taken, ← hlen, List.drop_left]
      · rw [h.taken, List.length_append]
        omega

/-! ## The wire -/

theorem load_eq_iff {m : Mem} {o : Int} {a b : Nat} : load m o a = load m o b ↔ a = b := by
  constructor
  · intro h
    have hlen := congrArg List.length h
    rwa [length_load, length_load] at hlen
  · intro heq
    subst heq
    rfl

/-- For either client, the trailer is put where the Linux branch puts it; `WriteFile` is given
    the bytes `send` or `write` would be given if and only if they are fewer than 2^32. -/
theorem windows_write_agrees_iff (t : StreamClient) (c : Client) (hc : c.isConnected = true)
    (writeFile : List Byte → Option DWord) (accept : List Byte → Int) (buffer : Mem) (size : SizeT) (addCrc : Bool) :
    (writeS t c writeFile buffer size addCrc).buffer = (t.writeS c accept buffer size addCrc).buffer ∧
    ((writeS t c writeFile buffer size addCrc).sent = (t.writeS c accept buffer size addCrc).sent ↔
      (wireSize size addCrc).val < 2 ^ 32) := by
  have hlen : (toDWord (wireSize size addCrc)).val = (wireSize size addCrc).val ↔ (wireSize size addCrc).val < 2 ^ 32 := by
    rw [toDWord_val]
    omega
  have hsent : ∀ (fd : Int) (m : Mem) (failed : Status), (handOver writeFile failed fd m (wireSize size addCrc)).sent =
      (Transport.handOver accept fd none m (wireSize size addCrc)).sent ↔ (wireSize size addCrc).val < 2 ^ 32 := by
    intro fd m failed
    rw [← hlen, ← load_eq_iff (m := m) (o := 0)]
    simp [handOver, Transport.handOver]
  cases t with
  | tcp =>
    simp only [writeS, StreamClient.writeS, TCP.writeS, Transport.TCP.writeS, hc, Bool.not_true, Bool.false_eq_true,
      if_false]
    exact ⟨rfl, hsent _ _ _⟩
  | serial =>
    simp only [writeS, StreamClient.writeS, Serial.writeS, Transport.Serial.writeS, hc, if_true]
    exact ⟨rfl, hsent _ _ _⟩

end ComClient.Transport.Windows
