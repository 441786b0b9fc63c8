/-
  ComClient.Client.Shared — one connected TCP or serial client used by any number of
  threads (`readS` with `read_until` and `writeS` of `src/tcp_client.cpp` and
  `src/serial_client.cpp`), with every interleaving of their steps.

  A call takes `m_mutex`, a `writeS` with `add_crc` then stores the trailer, the data go in
  any number of pieces, and the call gives the mutex back. No transfer fails. What
  arrives waits in `inbox`. The lists `called`, `locked`, `done` and `arrived` are history.

  Both calls hold the mutex from their first statement to their last, so only one thread is
  ever inside (`Inv`), and every call moves its bytes in one stretch (`shared_whole`):
  - the outgoing stream is the frames of the calls in lock order, the last one perhaps in
    part; a frame is the payload, and behind it the trailer that belongs to it, if the
    payload has fewer than 2^31 bytes;
  - the bytes read from the incoming stream are the segments of the calls in lock order,
    each of the size its call asked for.
  `CRC` takes the length of the payload as an `int`, so behind a longer one there may be
  another trailer (`a_long_payload_has_a_wrong_trailer`).
-/

import ComClient.Transport.Frames
import ComClient.Lts.Run

namespace ComClient.Client

open ComClient.Transport ComClient.Crc ComClient.Lts

namespace Shared

/-! ## The code -/

/-- A call on a connected client. -/
inductive Op where
  | writeS (buffer : Mem) (size : SizeT) (addCrc : Bool)
  /-- With `read_until = true`. -/
  | readS (buffer : Mem) (size : SizeT) (hasCrc : Bool)

inductive Pc where
  | idle
  /-- For `m_mutex`. -/
  | waiting (op : Op)
  | storing (buffer : Mem) (size : SizeT)
  /-- Inside `send` or `write` of `len` bytes, of which `rest` are not accepted yet. -/
  | sending (buffer : Mem) (len : SizeT) (rest : List Byte)
  /-- About to call `recv` or `read`, with `n` bytes read. -/
  | receiving (buffer : Mem) (size : SizeT) (hasCrc : Bool) (n : Int)
  | returning (buffer : Mem) (ret : Int)

/-- A call that has returned: the buffer and the value it left, and the bytes it moved. -/
structure Done (τ : Type) where
  who : τ
  op : Op
  buffer : Mem
  ret : Int
  bytes : List Byte

structure St (τ : Type) where
  /-- Who has `m_mutex`, and for which call. -/
  holder : Option (τ × Op)
  pc : τ → Pc
  wire : List Byte
  inbox : List Byte
  /-- What the call inside has moved so far. -/
  moved : List Byte
  called : List (τ × Op)
  locked : List (τ × Op)
  done : List (Done τ)
  arrived : List Byte

inductive Act (τ : Type) where
  | call (t : τ) (op : Op)
  | lock (t : τ)
  | store (t : τ)
  | send (t : τ) (k : Nat)
  | recv (t : τ) (k : Nat)
  | unlock (t : τ)
  | arrive (bytes : List Byte)

/-- The call of `send` or `write`, with the buffer as it is by then. -/
def handing (buffer : Mem) (size : SizeT) (addCrc : Bool) : Pc :=
  .sending buffer (wireSize size addCrc) (load buffer 0 (wireSize size addCrc).val)

def enter : Op → Pc
  | .writeS buffer size addCrc => if addCrc then .storing buffer size else handing buffer size false
  | .readS buffer size hasCrc => .receiving buffer size hasCrc 0

/-- What follows a `recv` that has stored `bytes` at `buffer + n`. -/
def received (buffer : Mem) (size : SizeT) (hasCrc : Bool) (n : Int) (bytes : List Byte) : Pc :=
  let buffer := store buffer n bytes
  let n := n + bytes.length
  if toSizeT n ≠ size then .receiving buffer size hasCrc n else .returning buffer (retval hasCrc size buffer n)

variable {τ : Type} [DecidableEq τ]

def start : St τ := ⟨none, fun _ => .idle, [], [], [], [], [], [], []⟩

def step (s : St τ) : Act τ → Option (St τ)
  | .call t op =>
    match s.pc t with
    | .idle => some { s with pc := Function.update s.pc t (.waiting op), called := s.called ++ [(t, op)] }
    | _ => none
  | .lock t =>
    match s.holder, s.pc t with
    | none, .waiting op =>
      some { s with
        holder := some (t, op)
        pc := Function.update s.pc t (enter op)
        locked := s.locked ++ [(t, op)] }
    | _, _ => none
  | .store t =>
    match s.pc t with
    | .storing buffer size => some { s with pc := Function.update s.pc t (handing (withTrailer buffer size) size true) }
    | _ => none
  | .send t k =>
    match s.pc t with
    | .sending buffer len rest =>
      some { s with
        pc := Function.update s.pc t
          (if (rest.drop k).isEmpty then .returning buffer (toInt len.val) else .sending buffer len (rest.drop k))
        wire := s.wire ++ rest.take k
        moved := s.moved ++ rest.take k }
    | _ => none
  | .recv t k =>
    match s.pc t with
    | .receiving buffer size hasCrc n =>
      let m := min k (size - toSizeT n).val
      if fitsSsize (n + (s.inbox.take m).length) then
        some { s with
          pc := Function.update s.pc t (received buffer size hasCrc n (s.inbox.take m))
          inbox := s.inbox.drop m
          moved := s.moved ++ s.inbox.take m }
      else none
    | _ => none
  | .unlock t =>
    match s.holder, s.pc t with
    | some (u, op), .returning buffer ret =>
      if u = t then
        some { s with
          holder := none
          pc := Function.update s.pc t .idle
          moved := []
          done := s.done ++ [⟨t, op, buffer, ret, s.moved⟩] }
      else none
    | _, _ => none
  | .arrive bytes => some { s with inbox := s.inbox ++ bytes, arrived := s.arrived ++ bytes }

/-! ## One call -/

/-- The caller's buffer once a `writeS` is done with it. -/
def written (buffer : Mem) (size : SizeT) (addCrc : Bool) : Mem := if addCrc then withTrailer buffer size else buffer

/-- What a call hands to `send` or `write`. -/
def frame : Op → List Byte
  | .writeS buffer size addCrc => load (written buffer size addCrc) 0 (wireSize size addCrc).val
  | .readS _ _ _ => []

/-- Of what a call moved, the bytes it sent. -/
def sentBy : Op → List Byte → List Byte
  | .writeS _ _ _, bytes => bytes
  | .readS _ _ _, _ => []

/-- Of what a call moved, the bytes it read. -/
def readBy : Op → List Byte → List Byte
  | .writeS _ _ _, _ => []
  | .readS _ _ _, bytes => bytes

theorem sentBy_nil (op : Op) : sentBy op [] = [] := by cases op <;> rfl

theorem readBy_nil (op : Op) : readBy op [] = [] := by cases op <;> rfl

theorem sentBy_append (op : Op) (a b : List Byte) : sentBy op (a ++ b) = sentBy op a ++ sentBy op b := by
  cases op <;> rfl

theorem readBy_append (op : Op) (a b : List Byte) : readBy op (a ++ b) = readBy op a ++ readBy op b := by
  cases op <;> rfl

/-- Alone on its connection, a `readS` that gets `bytes` in these pieces returns with them and
    leaves the rest. -/
def ReadAlone (buffer : Mem) (size : SizeT) (bytes : List Byte) : Prop :=
  ∃ es, ∀ fd rest es', Fills size 0 buffer (bytes ++ rest) size.val es'
    (callsFrom stream fd size true 0 buffer (bytes ++ rest) (es ++ es'))

/-- A call that moved `bytes` and left `buffer` and `ret`: all its frame, or as many bytes as
    it asked for, in its buffer. -/
def Complete : Op → Mem → Int → List Byte → Prop
  | .writeS buffer size addCrc, buffer', ret, bytes =>
    bytes = frame (.writeS buffer size addCrc) ∧ buffer' = written buffer size addCrc ∧ ret = toInt (wireSize size addCrc).val
  | .readS buffer size hasCrc, buffer', ret, bytes =>
    bytes.length = size.val ∧ buffer' = store buffer 0 bytes ∧ ret = retval hasCrc size buffer' size.val ∧
      ReadAlone buffer size bytes

/-- Two runs that end alike. -/
structure SameEnd {κ ε : Type} (r r' : Run κ ε) : Prop where
  status : r.status = r'.status
  buf : r.buf = r'.buf
  kernel : r.kernel = r'.kernel
  rest : r.rest = r'.rest

/-- Alone on its connection, a `readS` that has got `moved` in these pieces is at this call. -/
def ReachedAlone (buffer : Mem) (size : SizeT) (moved : List Byte) : Prop :=
  ∃ es, ∀ fd rest es', SameEnd (callsFrom stream fd size true 0 buffer (moved ++ rest) (es ++ es'))
    (callsFrom stream fd size true moved.length (store buffer 0 moved) rest es')

/-- Where the call inside is, by what it has moved. -/
inductive Inside (moved : List Byte) : Op → Pc → Prop
  | storing (buffer : Mem) (size : SizeT) : moved = [] → Inside moved (.writeS buffer size true) (.storing buffer size)
  | sending (buffer : Mem) (size : SizeT) (addCrc : Bool) (rest : List Byte) :
      moved ++ rest = frame (.writeS buffer size addCrc) →
      Inside moved (.writeS buffer size addCrc) (.sending (written buffer size addCrc) (wireSize size addCrc) rest)
  | receiving (buffer : Mem) (size : SizeT) (hasCrc : Bool) : moved.length < size.val ∨ moved = [] →
      ReachedAlone buffer size moved →
      Inside moved (.readS buffer size hasCrc) (.receiving (store buffer 0 moved) size hasCrc moved.length)
  | returning (op : Op) (buffer : Mem) (ret : Int) : Complete op buffer ret moved → Inside moved op (.returning buffer ret)

theorem inside_enter (op : Op) : Inside [] op (enter op) := by
  cases op with
  | writeS buffer size addCrc =>
    cases addCrc with
    | true => exact .storing buffer size rfl
    | false => exact .sending buffer size false _ rfl
  | readS buffer size hasCrc =>
    have halone : ReachedAlone buffer size [] := by
      refine ⟨[], ?_⟩
      intro fd rest es'
      rw [store_nil]
      exact ⟨rfl, rfl, rfl, rfl⟩
    have hreceiving : Inside [] (.readS buffer size hasCrc) _ := .receiving buffer size hasCrc (Or.inr rfl) halone
    rwa [store_nil] at hreceiving

theorem inside_store {moved : List Byte} {op : Op} {buffer : Mem} {size : SizeT}
    (h : Inside moved op (.storing buffer size)) : Inside moved op (handing (withTrailer buffer size) size true) := by
  cases h with
  | storing _ _ hmoved =>
    rw [hmoved]
    exact .sending buffer size true _ rfl

/-- A piece of a frame. -/
theorem inside_send {moved : List Byte} {op : Op} {buffer : Mem} {len : SizeT} {rest : List Byte}
    (h : Inside moved op (.sending buffer len rest)) (k : Nat) :
    sentBy op (rest.take k) = rest.take k ∧ readBy op (rest.take k) = [] ∧ Inside (moved ++ rest.take k) op
      (if (rest.drop k).isEmpty then .returning buffer (toInt len.val) else .sending buffer len (rest.drop k)) := by
  cases h with
  | sending buffer size addCrc _ hframe =>
    have hframe' : (moved ++ rest.take k) ++ rest.drop k = frame (.writeS buffer size addCrc) := by
      rw [List.append_assoc, List.take_append_drop, hframe]
    refine ⟨rfl, rfl, ?_⟩
    by_cases hrest : (rest.drop k).isEmpty = true
    · rw [if_pos hrest]
      rw [List.isEmpty_iff.mp hrest, List.append_nil] at hframe'
      exact .returning _ _ _ ⟨hframe', rfl, rfl⟩
    · rw [if_neg hrest]
      exact .sending buffer size addCrc _ hframe'

/-- One more piece of a `readS` on its own. -/
theorem callsFrom_piece (buffer : Mem) {size : SizeT} {n : Nat} {bytes : List Byte}
    (hbytes : bytes.length ≤ (size - toSizeT n).val) (hfits : fitsSsize (n + bytes.length) = true) (fd : Int)
    (rest : List Byte) (es : List Answer) :
    SameEnd (callsFrom stream fd size true n buffer (bytes ++ rest) (.upto bytes.length :: es))
      (if toSizeT (n + bytes.length) ≠ size then
        callsFrom stream fd size true (n + bytes.length) (store buffer n bytes) rest es
      else ⟨[], .returned (n + bytes.length), store buffer n bytes, rest, es⟩) := by
  rw [callsFrom_upto (m := bytes.length) (by omega) (by rw [List.length_append]; omega)]
  simp only [hfits, if_true, List.take_left, List.drop_left, and_true]
  by_cases hdone : toSizeT (n + bytes.length) ≠ size
  · simp only [if_pos hdone]
    exact ⟨rfl, rfl, rfl, rfl⟩
  · simp only [if_neg hdone]
    exact ⟨rfl, rfl, rfl, rfl⟩

/-- A piece of a segment. -/
theorem inside_recv {moved : List Byte} {op : Op} {buffer : Mem} {size : SizeT} {hasCrc : Bool} {n : Int}
    {bytes : List Byte} (h : Inside moved op (.receiving buffer size hasCrc n))
    (hbytes : bytes.length ≤ (size - toSizeT n).val) (hfits : fitsSsize (n + bytes.length) = true) :
    readBy op bytes = bytes ∧ sentBy op bytes = [] ∧ Inside (moved ++ bytes) op (received buffer size hasCrc n bytes) := by
  cases h with
  | receiving buffer _ _ hroom halone =>
    refine ⟨rfl, rfl, ?_⟩
    have hsize := size.isLt
    have hlen := room size moved.length
    have htotal : moved.length + bytes.length ≤ size.val := by
      rcases hroom with hroom | hroom
      · omega
      · rw [hroom] at hlen hbytes ⊢
        simp only [List.length_nil, Nat.cast_zero, Int.sub_zero] at hlen hbytes ⊢
        omega
    have hn : (moved.length : Int) + bytes.length = (moved ++ bytes).length := by
      rw [List.length_append, Nat.cast_add]
    have hbuffer : store (store buffer 0 moved) moved.length bytes = store buffer 0 (moved ++ bytes) := by
      rw [← store_store, Int.zero_add]
    obtain ⟨es, halone⟩ := halone
    -- the same piece, taken by the `readS` on its own
    have hpiece : ∀ fd rest es', SameEnd
        (callsFrom stream fd size true 0 buffer (moved ++ bytes ++ rest) (es ++ [.upto bytes.length] ++ es'))
        (if toSizeT (moved ++ bytes).length ≠ size then
          callsFrom stream fd size true (moved ++ bytes).length (store buffer 0 (moved ++ bytes)) rest es'
        else ⟨[], .returned (moved ++ bytes).length, store buffer 0 (moved ++ bytes), rest, es'⟩) := by
      intro fd rest es'
      have hbefore := halone fd (bytes ++ rest) (.upto bytes.length :: es')
      have hnext := callsFrom_piece (store buffer 0 moved) hbytes hfits fd rest es'
      rw [hn, hbuffer] at hnext
      simp only [List.append_assoc, List.singleton_append]
      exact ⟨hbefore.status.trans hnext.status, hbefore.buf.trans hnext.buf, hbefore.kernel.trans hnext.kernel,
        hbefore.rest.trans hnext.rest⟩
    unfold received
    dsimp only
    rw [hn, hbuffer]
    by_cases hdone : toSizeT ((moved ++ bytes).length : Nat) ≠ size
    · simp only [if_pos hdone] at hpiece ⊢
      refine .receiving buffer size hasCrc (Or.inl ?_) ⟨_, hpiece⟩
      rw [List.length_append] at hdone ⊢
      have hne : moved.length + bytes.length ≠ size.val := by
        intro heq
        exact hdone (toSizeT_eq (by omega))
      omega
    · simp only [if_neg hdone] at hpiece ⊢
      have hall : (moved ++ bytes).length = size.val := by
        have hval := toSizeT_val (moved ++ bytes).length
        rw [not_not.mp hdone] at hval
        rw [List.length_append] at hval ⊢
        omega
      refine .returning _ _ _ ⟨hall, rfl, ?_, es ++ [.upto bytes.length], ?_⟩
      · rw [hall]
      · intro fd rest es'
        have h := hpiece fd rest es'
        rw [hall] at h
        refine ⟨h.status, ?_, ?_, h.rest⟩
        · rw [h.buf, ← hall, List.take_left]
          rfl
        · rw [h.kernel, ← hall, List.drop_left]

/-! ## The lock -/

def Pc.pending : Pc → List Op
  | .waiting op => [op]
  | _ => []

def callsOf (t : τ) (cs : List (τ × Op)) : List Op := (cs.filter fun c => c.1 = t).map (·.2)

theorem callsOf_append (t : τ) (cs cs' : List (τ × Op)) : callsOf t (cs ++ cs') = callsOf t cs ++ callsOf t cs' := by
  simp [callsOf]

theorem callsOf_self (t : τ) (op : Op) : callsOf t [(t, op)] = [op] := by simp [callsOf]

theorem callsOf_other {t u : τ} (h : u ≠ t) (op : Op) : callsOf t [(u, op)] = [] := by simp [callsOf, h]

def Done.call (d : Done τ) : τ × Op := (d.who, d.op)

def Done.sent (d : Done τ) : List Byte := sentBy d.op d.bytes

def Done.got (d : Done τ) : List Byte := readBy d.op d.bytes

/-- What the call inside has sent so far. -/
def St.sending (s : St τ) : List Byte := (s.holder.map fun h => sentBy h.2 s.moved).getD []

/-- What the call inside has read so far. -/
def St.reading (s : St τ) : List Byte := (s.holder.map fun h => readBy h.2 s.moved).getD []

structure Inv (s : St τ) : Prop where
  outside : ∀ t, (∀ op, s.holder ≠ some (t, op)) → s.pc t = .idle ∨ ∃ op, s.pc t = .waiting op
  inside : ∀ t op, s.holder = some (t, op) → Inside s.moved op (s.pc t)
  free : s.holder = none → s.moved = []
  order : ∀ t, callsOf t s.called = callsOf t s.locked ++ (s.pc t).pending
  locked : s.locked = s.done.map Done.call ++ s.holder.toList
  wire : s.wire = s.done.flatMap Done.sent ++ s.sending
  arrived : s.arrived = s.done.flatMap Done.got ++ s.reading ++ s.inbox
  complete : ∀ d ∈ s.done, Complete d.op d.buffer d.ret d.bytes

variable {s : St τ} {t : τ}

theorem inv_start : Inv (start : St τ) where
  outside _ _ := Or.inl rfl
  inside _ _ h := nomatch h
  free _ := rfl
  order _ := rfl
  locked := rfl
  wire := rfl
  arrived := rfl
  complete _ h := nomatch h

/-- A thread that is past the lock holds it. -/
theorem holder_of (hs : Inv s) (hidle : s.pc t ≠ .idle) (hwaiting : ∀ op, s.pc t ≠ .waiting op) :
    ∃ op, s.holder = some (t, op) ∧ Inside s.moved op (s.pc t) := by
  by_cases h : ∃ op, s.holder = some (t, op)
  · obtain ⟨op, h⟩ := h
    exact ⟨op, h, hs.inside t op h⟩
  · rcases hs.outside t (not_exists.mp h) with hpc | ⟨op, hpc⟩
    · exact absurd hpc hidle
    · exact absurd hpc (hwaiting op)

theorem inside_pending {moved : List Byte} {op : Op} {pc : Pc} (h : Inside moved op pc) : pc.pending = [] := by
  cases h <;> rfl

/-- A step of the thread inside that moves `piece`. -/
theorem inv_moves {op : Op} {pc : Pc} {piece wire inbox : List Byte} (hs : Inv s) (hholder : s.holder = some (t, op))
    (hin : Inside (s.moved ++ piece) op pc) (hwire : wire = s.wire ++ sentBy op piece)
    (hinbox : s.inbox = readBy op piece ++ inbox) :
    Inv { s with pc := Function.update s.pc t pc, wire := wire, inbox := inbox, moved := s.moved ++ piece } := by
  have hpending : (s.pc t).pending = [] := inside_pending (hs.inside t op hholder)
  refine ⟨?_, ?_, ?_, ?_, hs.locked, ?_, ?_, hs.complete⟩
  · intro u hu
    have hne : u ≠ t := by
      rintro rfl
      exact hu op hholder
    simp only [Function.update_of_ne hne]
    exact hs.outside u hu
  · intro u op' h
    have hu : (t, op) = (u, op') := Option.some.inj (hholder.symm.trans h)
    cases hu
    simpa only [Function.update_self] using hin
  · intro h
    rw [hholder] at h
    cases h
  · intro u
    by_cases hu : u = t
    · subst hu
      simpa only [Function.update_self, inside_pending hin, hpending] using hs.order u
    · simpa only [Function.update_of_ne hu] using hs.order u
  · have hold := hs.wire
    simp only [St.sending, hholder, Option.map_some, Option.getD_some] at hold ⊢
    rw [hwire, hold, sentBy_append, List.append_assoc]
  · have hold := hs.arrived
    simp only [St.reading, hholder, Option.map_some, Option.getD_some] at hold ⊢
    rw [hold, hinbox, readBy_append]
    simp only [List.append_assoc]

theorem inv_call {op : Op} (hs : Inv s) (hpc : s.pc t = .idle) :
    Inv { s with pc := Function.update s.pc t (.waiting op), called := s.called ++ [(t, op)] } := by
  refine ⟨?_, ?_, hs.free, ?_, hs.locked, hs.wire, hs.arrived, hs.complete⟩
  · intro u hu
    by_cases hut : u = t
    · subst hut
      exact Or.inr ⟨op, Function.update_self _ _ _⟩
    · simpa only [Function.update_of_ne hut] using hs.outside u hu
  · intro u op' h
    have hut : u ≠ t := by
      rintro rfl
      have hin := hs.inside u op' h
      rw [hpc] at hin
      cases hin
    simpa only [Function.update_of_ne hut] using hs.inside u op' h
  · intro u
    have horder := hs.order u
    simp only [callsOf_append]
    by_cases hut : u = t
    · subst hut
      rw [hpc] at horder
      simp only [callsOf_self, Function.update_self]
      rw [horder]
      simp [Pc.pending]
    · simp only [callsOf_other (Ne.symm hut), Function.update_of_ne hut, List.append_nil]
      exact horder

theorem inv_lock {op : Op} (hs : Inv s) (hholder : s.holder = none) (hpc : s.pc t = .waiting op) :
    Inv { s with
      holder := some (t, op), pc := Function.update s.pc t (enter op), locked := s.locked ++ [(t, op)] } := by
  have hmoved := hs.free hholder
  have hin : Inside s.moved op (enter op) := by
    rw [hmoved]
    exact inside_enter op
  refine ⟨?_, ?_, nofun, ?_, ?_, ?_, ?_, hs.complete⟩
  · intro u hu
    have hut : u ≠ t := by
      rintro rfl
      exact hu op rfl
    simp only [Function.update_of_ne hut]
    refine hs.outside u ?_
    rw [hholder]
    exact fun _ => nofun
  · intro u op' h
    cases h
    simpa only [Function.update_self] using hin
  · intro u
    have horder := hs.order u
    simp only [callsOf_append]
    by_cases hut : u = t
    · subst hut
      rw [hpc] at horder
      simp only [callsOf_self, Function.update_self, inside_pending hin, List.append_nil]
      exact horder
    · simp only [callsOf_other (Ne.symm hut), Function.update_of_ne hut, List.append_nil]
      exact horder
  · have hlocked := hs.locked
    rw [hholder] at hlocked
    simpa using hlocked
  · have hwire := hs.wire
    simpa [St.sending, hholder, hmoved, sentBy_nil] using hwire
  · have harrived := hs.arrived
    simpa [St.reading, hholder, hmoved, readBy_nil] using harrived

theorem inv_unlock {op : Op} {buffer : Mem} {ret : Int} (hs : Inv s) (hholder : s.holder = some (t, op))
    (hpc : s.pc t = .returning buffer ret) :
    Inv { s with
      holder := none, pc := Function.update s.pc t .idle, moved := []
      done := s.done ++ [⟨t, op, buffer, ret, s.moved⟩] } := by
  have hin := hs.inside t op hholder
  rw [hpc] at hin
  refine ⟨?_, nofun, fun _ => rfl, ?_, ?_, ?_, ?_, ?_⟩
  · intro u _
    by_cases hut : u = t
    · subst hut
      exact Or.inl (Function.update_self _ _ _)
    · simp only [Function.update_of_ne hut]
      refine hs.outside u ?_
      intro op' h
      exact hut (Prod.mk.inj (Option.some.inj (h.symm.trans hholder))).1
  · intro u
    have horder := hs.order u
    by_cases hut : u = t
    · subst hut
      rw [hpc] at horder
      simp only [Function.update_self]
      exact horder
    · simpa only [Function.update_of_ne hut] using horder
  · have hlocked := hs.locked
    rw [hholder] at hlocked
    simpa [Done.call] using hlocked
  · have hwire := hs.wire
    simpa [St.sending, hholder, Done.sent] using hwire
  · have harrived := hs.arrived
    simpa [St.reading, hholder, Done.got] using harrived
  · intro d hd
    rcases List.mem_append.mp hd with hd | hd
    · exact hs.complete d hd
    · rw [List.mem_singleton.mp hd]
      cases hin with
      | returning _ _ _ hcomplete => exact hcomplete

/-- The steps, one constructor each. -/
inductive Step (s : St τ) : Act τ → St τ → Prop
  | call (t : τ) (op : Op) : s.pc t = .idle → Step s (.call t op)
      { s with pc := Function.update s.pc t (.waiting op), called := s.called ++ [(t, op)] }
  | lock (t : τ) (op : Op) : s.holder = none → s.pc t = .waiting op → Step s (.lock t)
      { s with
        holder := some (t, op), pc := Function.update s.pc t (enter op), locked := s.locked ++ [(t, op)] }
  | store (t : τ) (buffer : Mem) (size : SizeT) : s.pc t = .storing buffer size → Step s (.store t)
      { s with pc := Function.update s.pc t (handing (withTrailer buffer size) size true) }
  | send (t : τ) (k : Nat) (buffer : Mem) (len : SizeT) (rest : List Byte) : s.pc t = .sending buffer len rest →
      Step s (.send t k)
        { s with
          pc := Function.update s.pc t
            (if (rest.drop k).isEmpty then .returning buffer (toInt len.val) else .sending buffer len (rest.drop k))
          wire := s.wire ++ rest.take k
          moved := s.moved ++ rest.take k }
  | recv (t : τ) (k m : Nat) (buffer : Mem) (size : SizeT) (hasCrc : Bool) (n : Int) :
      s.pc t = .receiving buffer size hasCrc n → m = min k (size - toSizeT n).val →
      fitsSsize (n + (s.inbox.take m).length) = true → Step s (.recv t k)
        { s with
          pc := Function.update s.pc t (received buffer size hasCrc n (s.inbox.take m))
          inbox := s.inbox.drop m
          moved := s.moved ++ s.inbox.take m }
  | unlock (t : τ) (op : Op) (buffer : Mem) (ret : Int) : s.holder = some (t, op) → s.pc t = .returning buffer ret →
      Step s (.unlock t)
        { s with
          holder := none, pc := Function.update s.pc t .idle, moved := []
          done := s.done ++ [⟨t, op, buffer, ret, s.moved⟩] }
  | arrive (bytes : List Byte) : Step s (.arrive bytes)
      { s with inbox := s.inbox ++ bytes, arrived := s.arrived ++ bytes }

theorem step_cases {s' : St τ} {a : Act τ} (h : step s a = some s') : Step s a s' := by
  cases a with
  | call t op =>
    simp only [step] at h
    split at h <;> cases h
    exact .call t op ‹_›
  | lock t =>
    simp only [step] at h
    split at h <;> cases h
    exact .lock t _ ‹_› ‹_›
  | store t =>
    simp only [step] at h
    split at h <;> cases h
    exact .store t _ _ ‹_›
  | send t k =>
    simp only [step] at h
    split at h <;> cases h
    exact .send t k _ _ _ ‹_›
  | recv t k =>
    simp only [step] at h
    split at h
    · obtain ⟨hfits, h⟩ := Option.ite_none_right_eq_some.mp h
      cases h
      exact .recv t k _ _ _ _ _ ‹_› rfl hfits
    · cases h
  | unlock t =>
    simp only [step] at h
    split at h
    · obtain ⟨hut, h⟩ := Option.ite_none_right_eq_some.mp h
      subst hut
      cases h
      exact .unlock _ _ _ _ ‹_› ‹_›
    · cases h
  | arrive bytes =>
    cases h
    exact .arrive bytes

theorem step_inv {s' : St τ} {a : Act τ} (hs : Inv s) (h : step s a = some s') : Inv s' := by
  cases step_cases h with
  | call t op hpc => exact inv_call hs hpc
  | lock t op hholder hpc => exact inv_lock hs hholder hpc
  | store t buffer size hpc =>
    obtain ⟨op, hholder, hin⟩ := holder_of (t := t) hs (by simp [hpc]) (by simp [hpc])
    rw [hpc] at hin
    have hnew := inside_store hin
    rw [← List.append_nil s.moved] at hnew
    have hwire : s.wire = s.wire ++ sentBy op [] := by rw [sentBy_nil, List.append_nil]
    have hinbox : s.inbox = readBy op [] ++ s.inbox := by rw [readBy_nil, List.nil_append]
    have hinv := inv_moves hs hholder hnew hwire hinbox
    rwa [List.append_nil] at hinv
  | send t k buffer len rest hpc =>
    obtain ⟨op, hholder, hin⟩ := holder_of (t := t) hs (by simp [hpc]) (by simp [hpc])
    rw [hpc] at hin
    obtain ⟨hsent, hread, hnew⟩ := inside_send hin k
    refine inv_moves hs hholder hnew ?_ ?_
    · rw [hsent]
    · rw [hread, List.nil_append]
  | recv t k m buffer size hasCrc n hpc hm hfits =>
    obtain ⟨op, hholder, hin⟩ := holder_of (t := t) hs (by simp [hpc]) (by simp [hpc])
    rw [hpc] at hin
    have hlen : (s.inbox.take m).length ≤ (size - toSizeT n).val := by
      rw [List.length_take]
      omega
    obtain ⟨hread, hsent, hnew⟩ := inside_recv hin hlen hfits
    refine inv_moves hs hholder hnew ?_ ?_
    · rw [hsent, List.append_nil]
    · rw [hread, List.take_append_drop]
  | unlock t op buffer ret hholder hpc => exact inv_unlock hs hholder hpc
  | arrive bytes =>
    refine ⟨hs.outside, hs.inside, hs.free, hs.order, hs.locked, hs.wire, ?_, hs.complete⟩
    have harrived := hs.arrived
    simp only [St.reading] at harrived ⊢
    rw [harrived, List.append_assoc]

/-! ## The streams -/

/-- The bytes of a `writeS`, unless its trailer is of a payload too long for `CRC`. -/
theorem frame_eq {buffer : Mem} {size : SizeT} {addCrc : Bool} (h : addCrc = true → size.val < 2 ^ 31) :
    frame (.writeS buffer size addCrc) =
      load buffer 0 size.val ++ (if addCrc then trailer (load buffer 0 size.val) else []) := by
  cases addCrc with
  | true =>
    have hwire : (wireSize size true).val = size.val + 2 := by
      have hsize := h rfl
      show (size.val + 2) % 2 ^ 64 = size.val + 2
      omega
    simp only [frame, written, if_true, hwire]
    exact load_withTrailer buffer size (h rfl)
  | false =>
    have hwire : wireSize size false = size := add_zero size
    simp [frame, written, hwire]

/-- It is what the `writeS` of either client hands to the kernel. -/
theorem frame_sent (kind : StreamClient) {c : Client} (hc : c.isConnected = true) (accept : List Byte → Int)
    (buffer : Mem) (size : SizeT) (addCrc : Bool) :
    (kind.writeS c accept buffer size addCrc).sent = some ⟨c.fd, frame (.writeS buffer size addCrc), none⟩ := by
  cases kind <;> simp [StreamClient.writeS, TCP.writeS, Serial.writeS, hc, handOver, frame, written]

/-- A `readS` that gets its segment in these pieces and nothing else ends as this one did. -/
theorem read_alone {buffer buffer' : Mem} {size : SizeT} {hasCrc : Bool} {ret : Int} {bytes : List Byte}
    (h : Complete (.readS buffer size hasCrc) buffer' ret bytes) :
    ∃ es, ∀ (kind : StreamClient) (c : Client), c.isConnected = true →
      (kind.readS c buffer size hasCrc true bytes es).status = .returned ret ∧
        (kind.readS c buffer size hasCrc true bytes es).buf = buffer' ∧
        (kind.readS c buffer size hasCrc true bytes es).kernel = [] := by
  obtain ⟨hlen, hbuffer, hret, es, halone⟩ := h
  refine ⟨es, ?_⟩
  intro kind c hc
  have hfills := halone c.fd [] []
  rw [List.append_nil, List.append_nil, ← readCalls_eq] at hfills
  have htake : bytes.take size.val = bytes := by rw [← hlen, List.take_length]
  have hbuf : (readCalls stream c.fd buffer size true bytes es).buf = buffer' := by
    rw [hfills.buf, htake, hbuffer]
    rfl
  rw [streamClient_readS, if_pos hc, readBody_buf, readBody_kernel]
  refine ⟨?_, hbuf, ?_⟩
  · rw [readBody_returned]
    exact ⟨size.val, hfills.status, by rw [hbuf, hret]⟩
  · rw [hfills.kernel, ← hlen, List.drop_length]

def Act.callsOf (t : τ) : Act τ → List Op
  | .call u op => if u = t then [op] else []
  | _ => []

/-- Only a call adds to the calls. -/
theorem step_called {s' : St τ} {a : Act τ} (h : step s a = some s') (t : τ) :
    callsOf t s'.called = callsOf t s.called ++ a.callsOf t := by
  have hsame : callsOf t s.called = callsOf t s.called ++ [] := (List.append_nil _).symm
  cases step_cases h with
  | call u op hpc =>
    simp only [callsOf_append, Act.callsOf]
    by_cases hu : u = t
    · rw [if_pos hu, hu, callsOf_self]
    · rw [if_neg hu, callsOf_other hu]
  | lock | store | send | recv | unlock | arrive => exact hsame

/-- Who holds the mutex has taken it now, or held it before. -/
theorem step_holder {s' : St τ} {a : Act τ} {op : Op} (h : step s a = some s') (hholder : s'.holder = some (t, op)) :
    s'.done = s.done ∧ (a = .lock t ∧ s'.locked = s.locked ++ [(t, op)] ∨ s.holder = some (t, op) ∧ s'.locked = s.locked) := by
  cases step_cases h with
  | lock u op' hfree hpc =>
    cases hholder
    exact ⟨rfl, Or.inl ⟨rfl, rfl⟩⟩
  | unlock u op' buffer ret hheld hpc => cases hholder
  | call | store | send | recv | arrive => exact ⟨rfl, Or.inr ⟨hholder, rfl⟩⟩

/-- What the calls of all threads have done to the two streams. -/
structure Whole (s : St τ) : Prop where
  /-- A thread's calls take the lock in the order in which it makes them. -/
  order : ∀ t, callsOf t s.called = callsOf t s.locked ++ (s.pc t).pending
  /-- They return in lock order; at most the last one has not. -/
  locked : s.locked = s.done.map Done.call ++ s.holder.toList
  wire : s.wire = s.done.flatMap Done.sent ++ s.sending
  arrived : s.arrived = s.done.flatMap Done.got ++ s.reading ++ s.inbox
  frames : ∀ d ∈ s.done, ∀ buffer size addCrc, d.op = .writeS buffer size addCrc → (addCrc = true → size.val < 2 ^ 31) →
    d.sent = load buffer 0 size.val ++ (if addCrc then trailer (load buffer 0 size.val) else [])
  segments : ∀ d ∈ s.done, ∀ buffer size hasCrc, d.op = .readS buffer size hasCrc →
    d.got.length = size.val ∧ d.buffer = store buffer 0 d.got ∧ d.ret = retval hasCrc size d.buffer size.val
  /-- The call inside has sent the front of its frame, or read no more than its segment. -/
  part : ∀ t op, s.holder = some (t, op) →
    s.sending <+: frame op ∧ ∀ buffer size hasCrc, op = .readS buffer size hasCrc → s.reading.length ≤ size.val

theorem inside_part {moved : List Byte} {op : Op} {pc : Pc} (h : Inside moved op pc) :
    sentBy op moved <+: frame op ∧
      ∀ buffer size hasCrc, op = .readS buffer size hasCrc → (readBy op moved).length ≤ size.val := by
  cases h with
  | storing buffer size hmoved =>
    rw [hmoved]
    exact ⟨List.nil_prefix, nofun⟩
  | sending buffer size addCrc rest hframe => exact ⟨⟨rest, hframe⟩, nofun⟩
  | receiving buffer size hasCrc hroom _ =>
    refine ⟨List.nil_prefix, ?_⟩
    intro buffer' size' hasCrc' h
    cases h
    rcases hroom with hroom | hroom
    · exact Nat.le_of_lt hroom
    · rw [hroom]
      exact Nat.zero_le _
  | returning op buffer ret hcomplete =>
    cases op with
    | writeS buffer size addCrc => exact ⟨hcomplete.1 ▸ List.prefix_rfl, nofun⟩
    | readS buffer size hasCrc =>
      refine ⟨List.nil_prefix, ?_⟩
      intro buffer' size' hasCrc' h
      cases h
      exact Nat.le_of_eq hcomplete.1

theorem whole_of_inv (hs : Inv s) : Whole s := by
  refine ⟨hs.order, hs.locked, hs.wire, hs.arrived, ?_, ?_, ?_⟩
  · intro d hd buffer size addCrc hop hsize
    have hcomplete := hs.complete d hd
    rw [hop] at hcomplete
    rw [Done.sent, hop, ← frame_eq hsize]
    exact hcomplete.1
  · intro d hd buffer size hasCrc hop
    have hcomplete := hs.complete d hd
    rw [hop] at hcomplete
    rw [Done.got, hop]
    exact ⟨hcomplete.1, hcomplete.2.1, hcomplete.2.2.1⟩
  · intro t op hholder
    have hpart := inside_part (hs.inside t op hholder)
    simpa only [St.sending, St.reading, hholder, Option.map_some, Option.getD_some] using hpart

theorem run_inv {as : List (Act τ)} {s : St τ} (h : run step start as = some s) : Inv s :=
  run_invariant (fun _ _ _ => step_inv) inv_start h

/-- For any threads, any calls of theirs and every interleaving of their steps. -/
theorem shared_whole {as : List (Act τ)} {s : St τ} (h : run step start as = some s) : Whole s :=
  whole_of_inv (run_inv h)

/-- A reader and a writer of one connection; the reply is in before the request is out. -/
def twoThreads : List (Act Bool) :=
  [.call true (.writeS (memOf [7]) (toSizeT 1) true), .call false (.readS (memOf []) (toSizeT 2) false), .arrive [8],
    .lock false, .recv false 1, .arrive [9], .recv false 5, .unlock false, .lock true, .store true, .send true 2, .send true 2,
    .unlock true]

theorem whole_of_two_threads : ∃ s, run step start twoThreads = some s ∧ Whole s := by
  have hsome : (run step start twoThreads).isSome = true := by decide +kernel
  obtain ⟨s, hs⟩ := Option.isSome_iff_exists.mp hsome
  exact ⟨s, hs, shared_whole hs⟩

/-! ## A payload too long for `CRC` -/

/-- One call of `writeS` with a trailer, from beginning to end. -/
def oneWrite (buffer : Mem) (size : SizeT) : List (Act Unit) :=
  [.call () (.writeS buffer size true), .lock (), .store (), .send () (wireSize size true).val, .unlock ()]

theorem oneWrite_wire (buffer : Mem) (size : SizeT) :
    ∃ s, run step start (oneWrite buffer size) = some s ∧ s.wire = frame (.writeS buffer size true) ∧ s.holder = none := by
  have htake : ∀ m : Mem, (load m 0 (wireSize size true).val).take (wireSize size true).val =
      load m 0 (wireSize size true).val := by
    intro m
    rw [List.take_of_length_le]
    rw [length_load]
  simp [oneWrite, run, step, start, enter, handing, htake, frame, written]

/-- A byte 1 behind `n` zeros. -/
def lastByte (n : Nat) : Mem := fun i => if i = n then 1 else 0

theorem crcFold_zeros {m : Mem} {n : Nat} (h : ∀ i < n, m (i : Nat) = 0) : crcFold sCrctable m n = 0#16 := by
  induction n with
  | zero => rfl
  | succ n ih =>
    have hprev : crcFold sCrctable m n = 0#16 := ih fun i hi => h i (by omega)
    have hlast : m (0 + (n : Int)) = 0 := by
      rw [Int.zero_add]
      exact h n (by omega)
    have hround : crcRound sCrctable 0#16 0 = 0#16 := by decide +kernel
    rw [crcFold, load_succ, List.foldl_append, ← crcFold, hprev, hlast]
    exact hround

theorem trailer_lastByte (n : Nat) : trailer (load (lastByte n) 0 (n + 1)) = [0x10, 0x21] := by
  have hzeros : crcFold sCrctable (lastByte n) n = 0#16 := by
    refine crcFold_zeros ?_
    intro i hi
    rw [lastByte, if_neg (by omega)]
  have hfold : (load (lastByte n) 0 (n + 1)).foldl (crcRound sCrctable) 0#16 = 0x1021#16 := by
    have hround : crcRound sCrctable 0#16 1 = 0x1021#16 := by decide +kernel
    rw [load_succ, List.foldl_append, ← crcFold, hzeros, lastByte, if_pos (Int.zero_add _)]
    exact hround
  rw [trailer, hfold]
  decide

/-- `CRC` is given a negative length, and the trailer is that of no bytes. -/
theorem frame_lastByte {n : Nat} {size : SizeT} (hsize : size.val = n + 1) (hn : n + 1 = 2 ^ 31) :
    frame (.writeS (lastByte n) size true) = load (lastByte n) 0 (n + 1) ++ [0, 0] := by
  have hint : toInt size.val = -2 ^ 31 := by
    rw [hsize, hn]
    decide
  have hcrc : crc sCrctable (lastByte n) (toInt size.val) = 0#16 := by
    have hnone : crcFold sCrctable (lastByte n) 0 = 0#16 := rfl
    rw [hint, crc, show (-2 ^ 31 : Int).toNat = 0 by decide, hnone]
    decide
  have hwire : (wireSize size true).val = n + 1 + 2 := by
    show (size.val + 2) % 2 ^ 64 = n + 1 + 2
    omega
  have hstored : withTrailer (lastByte n) size = store (lastByte n) (n + 1 : Nat) [0, 0] := by
    rw [withTrailer, hcrc, hsize]
    rfl
  simp only [frame, written, if_true, hwire]
  rw [load_add, hstored, load_store_out _ _ _ (Or.inl (by omega)), Int.zero_add]
  exact congrArg (load (lastByte n) 0 (n + 1) ++ ·) (load_store_same (lastByte n) (n + 1 : Nat) [0, 0])

theorem frame_lastByte_ne {n : Nat} {size : SizeT} (hsize : size.val = n + 1) (hn : n + 1 = 2 ^ 31) :
    frame (.writeS (lastByte n) size true) ≠ load (lastByte n) 0 (n + 1) ++ trailer (load (lastByte n) 0 (n + 1)) := by
  rw [frame_lastByte hsize hn, trailer_lastByte]
  intro h
  exact absurd (List.append_cancel_left h) (by decide)

/-- A payload of 2^31 bytes, written with `add_crc` on a connection that nobody else uses. -/
theorem a_long_payload_has_a_wrong_trailer :
    ∃ s, run step start (oneWrite (lastByte (2 ^ 31 - 1)) (2 ^ 31)) = some s ∧ s.holder = none ∧
      s.wire ≠ load (lastByte (2 ^ 31 - 1)) 0 (2 ^ 31 - 1 + 1) ++
        trailer (load (lastByte (2 ^ 31 - 1)) 0 (2 ^ 31 - 1 + 1)) := by
  obtain ⟨s, hrun, hwire, hholder⟩ := oneWrite_wire (lastByte (2 ^ 31 - 1)) (2 ^ 31)
  refine ⟨s, hrun, hholder, ?_⟩
  rw [hwire]
  exact frame_lastByte_ne rfl rfl

end Shared

end ComClient.Client
