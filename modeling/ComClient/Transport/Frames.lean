/-
  ComClient.Transport.Frames — checked frames from `writeS(.., add_crc = true)` to the
  peer's `readS(.., has_crc = true)`.

  (1) The trailer (`streamClient_writeS`): what the TCP and serial `writeS` hand to the
  kernel is the payload and the two bytes that make it pass `check_CRC`.

  (2) One frame (`read_frame`): over a stream that never fails and never stalls for
  good, a read of a frame's size ends with that frame in the buffer, whatever the
  pieces, and leaves the stream right behind it.

  (3) Many frames (`frames_round_trip`): so the reads of the peer stay in step with the
  writes, also past frames that were altered on the way.
-/

import ComClient.Transport.ReadLoop

namespace ComClient.Transport

open ComClient.Crc

/-! ## (1) The trailer -/

/-- `writeS` stores the trailer behind the payload. -/
theorem load_withTrailer (buffer : Mem) (size : SizeT) (hsize : size.val < 2 ^ 31) :
    load (withTrailer buffer size) 0 (size.val + 2) = load buffer 0 size.val ++ trailer (load buffer 0 size.val) := by
  have hcrc : crc sCrctable buffer (toInt size.val) =
      (crcFold sCrctable buffer size.val).setWidth 8 ++ (crcFold sCrctable buffer size.val >>> 8).setWidth 8 := by
    rw [toInt_of_lt (by omega) (by omega), crc, Int.toNat_natCast]
    exact swap_bytes _
  have hstore : withTrailer buffer size = store buffer size.val (trailer (load buffer 0 size.val)) := by
    rw [withTrailer, store16, hcrc, (bytes_of_append _ _).1, (bytes_of_append _ _).2]
    rfl
  rw [load_add, hstore, load_store_out _ _ _ (Or.inl (by omega)), Int.zero_add]
  exact congrArg (load buffer 0 size.val ++ ·) (load_store_same buffer size.val (trailer (load buffer 0 size.val)))

theorem frameOk_trailer (payload : List Byte) : frameOk (payload ++ trailer payload) = true :=
  (frameOk_iff payload _ _).mpr rfl

theorem wireSize_true {size : SizeT} (hsize : size.val < 2 ^ 31 - 2) : (wireSize size true).val = size.val + 2 := by
  show (size.val + 2) % 2 ^ 64 = size.val + 2
  omega

/-- What the clients of a stream hand to the kernel. -/
theorem streamClient_writeS (t : StreamClient) {c : Client} (hc : c.isConnected = true) (accept : List Byte → Int)
    (buffer : Mem) {size : SizeT} (hsize : size.val < 2 ^ 31 - 2) :
    (t.writeS c accept buffer size true).sent =
      some ⟨c.fd, load buffer 0 size.val ++ trailer (load buffer 0 size.val), none⟩ := by
  rw [← load_withTrailer buffer size (by omega), ← wireSize_true hsize]
  cases t
  · simp only [StreamClient.writeS, TCP.writeS, hc, handOver]
    rfl
  · simp only [StreamClient.writeS, Serial.writeS, hc, handOver]
    rfl

/-! ## (2) One frame -/

/-- How a stream without failures answers: over TCP every call gets something, over a
    serial port it may time out, but not for ever. -/
def Steady : StreamClient → (Nat → Answer) → Prop
  | .tcp, f => ∀ i, ∃ k, 0 < k ∧ f i = .upto k
  | .serial, f => (∀ i, ∃ k, f i = .upto k) ∧ ∀ i, ∃ j ≥ i, ∃ k, 0 < k ∧ f j = .upto k

/-- The first `u` answers. -/
def firsts (f : Nat → Answer) (u : Nat) : List Answer := (List.range u).map f

theorem firsts_succ (f : Nat → Answer) (u : Nat) : firsts f (u + 1) = f 0 :: firsts (fun i => f (i + 1)) u := by
  unfold firsts
  rw [List.range_succ_eq_map, List.map_cons, List.map_map]
  rfl

theorem firsts_add (f : Nat → Answer) (u v : Nat) : firsts f (u + v) = firsts f u ++ firsts (fun i => f (i + u)) v := by
  unfold firsts
  rw [List.range_add, List.map_append, List.map_map]
  congr 1
  apply List.map_congr_left
  intro i _
  rw [Function.comp_apply, Nat.add_comm]

theorem steady_shift {t : StreamClient} {f : Nat → Answer} (h : Steady t f) (u : Nat) :
    Steady t (fun i => f (i + u)) := by
  cases t with
  | tcp => exact fun i => h (i + u)
  | serial =>
    refine ⟨fun i => h.1 (i + u), fun i => ?_⟩
    obtain ⟨j, hj, k, hk, hf⟩ := h.2 (i + u)
    have hju : j - u + u = j := by omega
    exact ⟨j - u, by omega, k, hk, (congrArg f hju).trans hf⟩

theorem steady_serial {t : StreamClient} {f : Nat → Answer} (h : Steady t f) : Steady .serial f := by
  cases t with
  | tcp =>
    refine ⟨fun i => ?_, fun i => ⟨i, Nat.le_refl i, h i⟩⟩
    obtain ⟨k, -, hf⟩ := h i
    exact ⟨k, hf⟩
  | serial => exact h

/-- A run that has read `need` bytes to `n` and left the answers `es`. -/
structure Fills (size : SizeT) (n : Nat) (buf : Mem) (inbox : List Byte) (need : Nat) (es : List Answer)
    (r : Run (List Byte) Answer) : Prop where
  status : r.status = .returned size.val
  buf : r.buf = store buf n (inbox.take need)
  kernel : r.kernel = inbox.drop need
  rest : r.rest = es

theorem fills_after {size : SizeT} {n m need : Nat} {buf : Mem} {inbox : List Byte} {es : List Answer} {c : Call}
    {r : Run (List Byte) Answer} (hm : m ≤ need) (hneed : need ≤ inbox.length)
    (h : Fills size (n + m) (store buf n (inbox.take m)) (inbox.drop m) (need - m) es r) :
    Fills size n buf inbox need es (r.after c) := by
  refine ⟨h.status, ?_, ?_, h.rest⟩
  · have hlen : (inbox.take m).length = m := List.length_take_of_le (by omega)
    have hcat : inbox.take m ++ (inbox.drop m).take (need - m) = inbox.take need := by
      rw [← List.take_add, Nat.add_sub_cancel' hm]
    have hst := store_store buf n (inbox.take m) ((inbox.drop m).take (need - m))
    rw [hlen, hcat] at hst
    rw [Run.after_buf, h.buf, Nat.cast_add, hst]
  · rw [Run.after_kernel, h.kernel, List.drop_drop, Nat.add_sub_cancel' hm]

/-- A call that gets `m` of the bytes needed, and whatever fills the rest. -/
theorem fills_step {fd : Int} {size : SizeT} (h31 : size.val < 2 ^ 31) {n need m k : Nat} {buf : Mem}
    {inbox : List Byte} {f : Nat → Answer} (hn : n + need = size.val) (hin : need ≤ inbox.length) (hf : f 0 = .upto k)
    (hm : min k need = m)
    (hnext : m < need → ∃ u, ∀ es, Fills size (n + m) (store buf n (inbox.take m)) (inbox.drop m) (need - m) es
      (callsFrom stream fd size true (n + m : Nat) (store buf n (inbox.take m)) (inbox.drop m)
        (firsts (fun i => f (i + 1)) u ++ es))) :
    ∃ u, ∀ es, Fills size n buf inbox need es (callsFrom stream fd size true n buf inbox (firsts f u ++ es)) := by
  have hroom : (size - toSizeT n).val = need := by
    have := room size n
    omega
  have hcast : ((n + m : Nat) : Int) = (n : Int) + m := Nat.cast_add n m
  have hfit : fitsSsize ((n : Int) + m) = true := fitsSsize_iff.mpr ⟨by omega, by omega⟩
  by_cases hlast : m < need
  · obtain ⟨u, hu⟩ := hnext hlast
    refine ⟨u + 1, fun es => ?_⟩
    have hmore : toSizeT ((n : Int) + m) ≠ size := toSizeT_ne_of_lt (by omega) (by omega)
    rw [firsts_succ, hf, List.cons_append, callsFrom_upto (m := m) (by rw [hroom]; exact hm) (by omega)]
    simp only [hfit, if_true]
    rw [if_pos ⟨hmore, trivial⟩, ← hcast]
    exact fills_after (by omega) hin (hu es)
  · have hall : m = need := by omega
    subst hall
    refine ⟨1, fun es => ?_⟩
    have hdone : toSizeT ((n : Int) + m) = size := toSizeT_eq (by omega)
    rw [firsts_succ, hf, List.cons_append, callsFrom_upto (m := m) (by rw [hroom]; exact hm) hin]
    simp only [hfit, hdone, if_true, ne_eq, not_true_eq_false, false_and, if_false]
    exact ⟨congrArg Status.returned (by omega), rfl, rfl, rfl⟩

/-- Finitely many answers fill the buffer. The induction is on the bytes still needed
    and, while calls time out, on how far the next byte is. -/
theorem callsFrom_fills (fd : Int) {size : SizeT} (h31 : size.val < 2 ^ 31) (need : Nat) (n : Nat) (buf : Mem)
    (inbox : List Byte) (f : Nat → Answer) (hn : n + need = size.val) (h0 : 0 < need) (hin : need ≤ inbox.length)
    (hf : Steady .serial f) :
    ∃ u, ∀ es, Fills size n buf inbox need es (callsFrom stream fd size true n buf inbox (firsts f u ++ es)) := by
  induction need using Nat.strong_induction_on generalizing n buf inbox f with
  | _ need ih =>
  -- a call that gets a byte
  have hget : ∀ (buf : Mem) (f : Nat → Answer) (k : Nat), Steady .serial f → 0 < k → f 0 = .upto k →
      ∃ u, ∀ es, Fills size n buf inbox need es (callsFrom stream fd size true n buf inbox (firsts f u ++ es)) := by
    intro buf f k hf hk hf0
    refine fills_step h31 hn hin hf0 rfl fun hlt => ?_
    exact ih _ (by omega) _ _ _ _ (by omega) (by omega) (by rw [List.length_drop]; omega) (steady_shift hf 1)
  obtain ⟨w, -, k, hk, hw⟩ := hf.2 0
  induction w generalizing buf f with
  | zero => exact hget buf f k hf hk hw
  | succ w ihw =>
    obtain ⟨k0, hk0⟩ := hf.1 0
    by_cases h0 : k0 = 0
    · subst h0
      exact fills_step (m := 0) h31 hn hin hk0 (Nat.zero_min _) fun _ => ihw _ _ (steady_shift hf 1) hw
    · exact hget buf f k0 hf (by omega) hk0

/-- What a checked read returns for a frame that fills the buffer. -/
theorem retval_frame {size : SizeT} (h2 : 2 ≤ size.val) (h31 : size.val < 2 ^ 31) (buf : Mem) {frame : List Byte}
    (hlen : frame.length = size.val) :
    retval true size (store buf 0 frame) size.val = if frameOk frame then (size.val : Int) else -1 := by
  have hint : toInt size.val = size.val := toInt_of_lt (by omega) (by omega)
  rw [retval, if_pos rfl, hint, checkCrc_load _ h2, ← hlen, load_store_same]

/-- The frame, accepted or not, is in the buffer, and the next read starts behind it. -/
structure Received (frame : List Byte) (into : Mem) (more : List Byte) (r : Run (List Byte) Answer) : Prop where
  status : r.status = .returned (if frameOk frame then (frame.length : Int) else -1)
  buf : r.buf = store into 0 frame
  kernel : r.kernel = more

theorem read_frame {t : StreamClient} {c : Client} (hc : c.isConnected = true) (size : SizeT) (h2 : 2 ≤ size.val)
    (h31 : size.val < 2 ^ 31) {frame : List Byte} (hlen : frame.length = size.val) (into : Mem) (more : List Byte)
    {f : Nat → Answer} (hf : Steady t f) :
    ∃ u, ∀ es, Received frame into more (t.readS c into size true true (frame ++ more) (firsts f u ++ es)) ∧
      (t.readS c into size true true (frame ++ more) (firsts f u ++ es)).rest = es := by
  obtain ⟨u, hu⟩ := callsFrom_fills c.fd h31 size.val 0 into (frame ++ more) f (Nat.zero_add _) (by omega)
    (by rw [List.length_append]; omega) (steady_serial hf)
  refine ⟨u, fun es => ?_⟩
  have h := hu es
  rw [Nat.cast_zero, ← readCalls_eq] at h
  have hbuf := h.buf
  have hkernel := h.kernel
  rw [← hlen, List.take_left, Nat.cast_zero] at hbuf
  rw [← hlen, List.drop_left] at hkernel
  rw [streamClient_readS, if_pos hc]
  refine ⟨⟨?_, ?_, ?_⟩, ?_⟩
  · refine readBody_returned.mpr ⟨_, h.status, ?_⟩
    rw [hbuf, retval_frame h2 h31 into hlen, hlen]
  · rw [readBody_buf]; exact hbuf
  · rw [readBody_kernel]; exact hkernel
  · rw [readBody_rest]; exact h.rest

/-! ## (3) Many frames -/

/-- One message: the sender's buffer and payload size, what arrives of its frame, and
    the buffer the peer reads it into. -/
structure Exchange where
  out : Mem
  size : SizeT
  arrived : List Byte
  into : Mem
  short : size.val < 2 ^ 31 - 2
  whole : arrived.length = size.val + 2

/-- What `writeS` handed to the kernel, if that takes the whole request. -/
def Exchange.handed (t : StreamClient) (c : Client) (x : Exchange) : List Byte :=
  (((t.writeS c (fun bs => bs.length) x.out x.size true).sent.map Sent.bytes).getD [])

/-- The peer's reads, one after another. -/
def readFrames (t : StreamClient) (c : Client) : List Exchange → List Byte → List Answer →
    List (Run (List Byte) Answer)
  | [], _, _ => []
  | x :: xs, inbox, es =>
    let r := t.readS c x.into (wireSize x.size true) true true inbox es
    match r.status with
    | .returned _ => r :: readFrames t c xs r.kernel r.rest
    | _ => [r]

/-- What arrives of the messages. -/
def wire (xs : List Exchange) : List Byte := xs.flatMap Exchange.arrived

theorem readFrames_received {t : StreamClient} {c : Client} (hc : c.isConnected = true) (xs : List Exchange)
    {f : Nat → Answer} (hf : Steady t f) :
    ∃ u, ∀ es, (readFrames t c xs (wire xs) (firsts f u ++ es)).length = xs.length ∧
      ∀ j x r, xs[j]? = some x → (readFrames t c xs (wire xs) (firsts f u ++ es))[j]? = some r →
        Received x.arrived x.into (wire (xs.drop (j + 1))) r := by
  induction xs generalizing f with
  | nil => exact ⟨0, fun es => ⟨rfl, fun j x r hx => by cases hx⟩⟩
  | cons x xs ih =>
    have hsize := wireSize_true x.short
    have hshort := x.short
    obtain ⟨u, hu⟩ := read_frame hc (wireSize x.size true) (by omega) (by omega)
      (by rw [hsize]; exact x.whole) x.into (wire xs) hf
    obtain ⟨v, hv⟩ := ih (steady_shift hf u)
    refine ⟨u + v, fun es => ?_⟩
    obtain ⟨hr, hrest⟩ := hu (firsts (fun i => f (i + u)) v ++ es)
    obtain ⟨hlen, hall⟩ := hv es
    have hruns : readFrames t c (x :: xs) (wire (x :: xs)) (firsts f (u + v) ++ es) =
        t.readS c x.into (wireSize x.size true) true true (x.arrived ++ wire xs)
          (firsts f u ++ (firsts (fun i => f (i + u)) v ++ es)) ::
        readFrames t c xs (wire xs) (firsts (fun i => f (i + u)) v ++ es) := by
      rw [firsts_add, List.append_assoc]
      simp only [readFrames, wire, List.flatMap_cons]
      simp only [wire] at hr hrest
      rw [hr.status, hr.kernel, hrest]
    rw [hruns]
    refine ⟨congrArg (· + 1) hlen, fun j y r hy hyr => ?_⟩
    cases j with
    | zero =>
      cases hy; cases hyr
      exact hr
    | succ j => exact hall j y r hy hyr

/-- What `writeS` hands over of a message is its payload with a trailer. -/
theorem handed_eq (t : StreamClient) {writer : Client} (hw : writer.isConnected = true) (x : Exchange) :
    x.handed t writer = load x.out 0 x.size.val ++ trailer (load x.out 0 x.size.val) := by
  rw [Exchange.handed, streamClient_writeS t hw _ _ x.short]
  rfl

/-- Every `writeS` hands over its payload with a trailer. The peer's j-th read returns once
    finitely many of its calls are answered: with the j-th frame as it arrived, accepted or
    not, and the stream at frame j+1. A frame that arrived as it was written is accepted. -/
theorem frames_round_trip (t : StreamClient) (writer peer : Client) (hw : writer.isConnected = true)
    (hp : peer.isConnected = true) (xs : List Exchange) (f : Nat → Answer) (hf : Steady t f) :
    (∀ x ∈ xs, x.handed t writer = load x.out 0 x.size.val ++ trailer (load x.out 0 x.size.val)) ∧
    ∃ u, ∀ es, (readFrames t peer xs (wire xs) (firsts f u ++ es)).length = xs.length ∧
      ∀ j x r, xs[j]? = some x → (readFrames t peer xs (wire xs) (firsts f u ++ es))[j]? = some r →
        Received x.arrived x.into (wire (xs.drop (j + 1))) r ∧
        (x.arrived = x.handed t writer → r.status = .returned (x.size.val + 2) ∧
          load r.buf 0 (x.size.val + 2) = load x.out 0 x.size.val ++ trailer (load x.out 0 x.size.val)) := by
  refine ⟨fun x _ => handed_eq t hw x, ?_⟩
  obtain ⟨u, hu⟩ := readFrames_received hp xs hf
  refine ⟨u, fun es => ⟨(hu es).1, fun j x r hx hr => ?_⟩⟩
  have hrec := (hu es).2 j x r hx hr
  refine ⟨hrec, fun hsame => ?_⟩
  have hframe : x.arrived = load x.out 0 x.size.val ++ trailer (load x.out 0 x.size.val) := hsame.trans (handed_eq t hw x)
  constructor
  · rw [hrec.status, hframe, frameOk_trailer, if_pos rfl, ← hframe, x.whole, Nat.cast_add]
    rfl
  · rw [hrec.buf, ← x.whole, load_store_same, hframe]

/-- A frame as written and an altered one. -/
def twoMessages : List Exchange :=
  [⟨memOf [1], toSizeT 1, [1, 0x10, 0x21], fun _ => 7, by decide, rfl⟩,
    ⟨memOf [2], toSizeT 1, [2, 0x10, 0x21], fun _ => 7, by decide, rfl⟩]

theorem frames_round_trip_two_messages :
    ∃ u, ∀ es r, (readFrames .serial someClient twoMessages (wire twoMessages)
      (firsts (fun i => .upto (i % 2)) u ++ es))[0]? = some r → r.status = .returned 3 := by
  obtain ⟨-, u, hu⟩ := frames_round_trip .serial someClient someClient rfl rfl twoMessages (fun i => .upto (i % 2))
    ⟨fun i => ⟨i % 2, rfl⟩, fun i => ⟨2 * i + 1, by omega, 1, by omega, congrArg Answer.upto (by omega)⟩⟩
  exact ⟨u, fun es r hr => (((hu es).2 0 _ r rfl hr).2 (by decide +kernel)).1⟩

end ComClient.Transport
