/-
  ComClient.Transport.Checked — what a checked read vouches for.

  `check_CRC` runs over `size` bytes of the buffer, whatever part of them this read has
  received. A read that was cut short (a serial timeout, a closed peer, a small
  datagram, with `read_until = false`) is checked over its bytes and the old content
  behind them (`load_stored`), and when those pass it returns its short count:
  a zeroed buffer passes with no byte received at all (`a_timeout_passes_the_check`).

  A failed call adds its -1 to `n`, so the next byte is stored over the last one: it takes
  a byte back (`Tape`, `stored_eq`). Once one has failed, what a read until `size` checks
  are the bytes that nothing took back, and its count is less than what it received.

  `checked_read_vouches_iff`: exactly when a checked read that returns a count vouches
  for a frame of that many bytes, all received by this very read. A read that received
  `size` bytes without a failure always does.
-/

import ComClient.Transport.ReadLoop

namespace ComClient.Transport

open ComClient.Crc

/-- A count that is not negative is that of a frame received by these very calls. -/
def Vouched (ret : Int) (cs : List Call) : Prop :=
  0 ≤ ret → 2 ≤ ret ∧ (delivered cs).length = ret ∧ frameOk (delivered cs) = true

instance (ret : Int) (cs : List Call) : Decidable (Vouched ret cs) := inferInstanceAs (Decidable (_ → _))

/-- The old content of the buffer behind the bytes received. -/
def leftover (buffer : Mem) (size : SizeT) (cs : List Call) : List Byte :=
  load buffer (delivered cs).length (size.val - (delivered cs).length)

/-- What is left of the bytes received: `kept` from `low` bytes before the buffer on, and
    behind them those that failures have taken back and nothing was stored over. -/
structure Tape where
  low : Nat
  kept : List Byte
  back : List Byte

namespace Tape

/-- A failure with nothing to take back goes one byte further before the buffer. -/
def next (old : Mem) (t : Tape) : Recv → Tape
  | .data bytes => ⟨t.low, t.kept ++ bytes, t.back.drop bytes.length⟩
  | .fail =>
    match t.kept.getLast? with
    | some b => ⟨t.low, t.kept.dropLast, b :: t.back⟩
    | none => ⟨t.low + 1, [], old (-(t.low + 1 : Nat)) :: t.back⟩

/-- What lies in the buffer. -/
def frame (t : Tape) : List Byte := t.kept.drop t.low

def mem (t : Tape) (old : Mem) : Mem := store old (-t.low) (t.kept ++ t.back)

/-- Where the next byte goes. -/
def pos (t : Tape) : Int := t.kept.length - t.low

end Tape

/-- By the results of the calls alone, and the old content. -/
def tape (old : Mem) (cs : List Call) : Tape := (cs.filterMap Call.res).foldl (Tape.next old) ⟨0, [], []⟩

/-- When a read vouches, by its results and the old content of the buffer. For a `size` that is
    an `int`: without failures, the read is complete, or what it received and the old
    content behind are no frame, or what it received is a frame by itself; with failures, it
    does not wait for `size` bytes, or the bytes that were not taken back are no frame.
    For another `size`: the same of the memory that `CRC` looks at by then. -/
def Sound (buffer : Mem) (size : SizeT) (readUntil : Bool) (cs : List Call) : Prop :=
  let got := delivered cs
  if size.val < 2 ^ 31 then
    if failures cs = 0 then
      got.length = size.val ∨ frameOk (got ++ leftover buffer size cs) = false ∨ (2 ≤ got.length ∧ frameOk got = true)
    else readUntil = false ∨ frameOk (tape buffer cs).frame = false
  else if readUntil then
    toInt size.val < 0 ∨ checkCrc ((tape buffer cs).mem buffer) (toInt size.val) = false ∨
      (got.length = toInt size.val ∧ 2 ≤ got.length ∧ frameOk got = true)
  else
    failures cs ≠ 0 ∨ toInt got.length < 0 ∨ checkCrc (store buffer 0 got) (toInt size.val) = false ∨
      (got.length < 2 ^ 31 ∧ 2 ≤ got.length ∧ frameOk got = true)

instance (buffer : Mem) (size : SizeT) (readUntil : Bool) (cs : List Call) : Decidable (Sound buffer size readUntil cs) := by
  unfold Sound; infer_instance

/-! ## What failures take back -/

theorem store_store_at (m : Mem) (o : Int) (a b : List Byte) :
    store (store m o a) o b = store m o (b ++ a.drop b.length) := by
  funext i
  by_cases hb : o ≤ i ∧ i < o + b.length
  · rw [store_in _ _ _ hb.1 hb.2, store_in _ _ _ hb.1 (by rw [List.length_append]; omega),
      List.getD_append _ _ _ _ (by omega)]
  · rw [store_out _ _ _ (by omega)]
    by_cases ha : o ≤ i ∧ i < o + a.length
    · rw [store_in _ _ _ ha.1 ha.2, store_in _ _ _ ha.1 (by rw [List.length_append, List.length_drop]; omega),
        List.getD_append_right _ _ _ _ (by omega), List.getD_eq_getElem?_getD, List.getD_eq_getElem?_getD,
        List.getElem?_drop]
      congr 2
      omega
    · rw [store_out _ _ _ (by omega), store_out _ _ _ (by rw [List.length_append, List.length_drop]; omega)]

/-- Storing what is there already. -/
theorem store_cons_same (m : Mem) (o : Int) (bs : List Byte) : store m o (m o :: bs) = store m (o + 1) bs := by
  have hone : store m o [m o] = m := by
    funext i
    by_cases hi : i = o
    · subst hi
      rw [store_in _ _ _ (by omega) (by simp), Int.sub_self]
      rfl
    · exact store_out _ _ _ (by simp only [List.length_singleton]; omega)
  have happend := store_store m o [m o] bs
  rw [hone] at happend
  exact happend.symm

theorem next_mem (old : Mem) (t : Tape) (r : Recv) :
    (t.next old r).mem old = store (t.mem old) t.pos r.bytes ∧ (t.next old r).pos = t.pos + r.ret := by
  cases r with
  | data bytes =>
    have hpos : -(t.low : Int) + t.kept.length = t.pos := by
      unfold Tape.pos
      omega
    have hlaid : t.mem old = store (store old (-t.low) t.kept) t.pos t.back := by
      rw [Tape.mem, ← store_store, hpos]
    constructor
    · rw [hlaid, Recv.bytes, store_store_at, ← hpos, store_store, ← List.append_assoc]
      rfl
    · unfold Tape.next Tape.pos
      dsimp only [Recv.ret]
      rw [List.length_append]
      omega
  | fail =>
    rcases List.eq_nil_or_concat t.kept with hnil | ⟨kept, b, hkept⟩
    · have hnext : t.next old .fail = ⟨t.low + 1, [], old (-(t.low + 1 : Nat)) :: t.back⟩ := by
        simp [Tape.next, hnil]
      rw [hnext]
      constructor
      · unfold Tape.mem
        rw [List.nil_append, store_cons_same, hnil, List.nil_append, show -((t.low + 1 : Nat) : Int) + 1 = -t.low by omega]
        exact (store_nil _ _).symm
      · unfold Tape.pos
        rw [hnil]
        dsimp only [Recv.ret, List.length_nil]
        omega
    · rw [List.concat_eq_append] at hkept
      have hnext : t.next old .fail = ⟨t.low, kept, b :: t.back⟩ := by
        simp [Tape.next, hkept]
      rw [hnext]
      constructor
      · unfold Tape.mem
        rw [hkept, List.append_assoc, List.singleton_append]
        exact (store_nil _ _).symm
      · unfold Tape.pos
        rw [hkept, List.length_append]
        dsimp only [Recv.ret, List.length_singleton]
        omega

theorem total_snoc (cs : List Call) (c : Call) : total (cs ++ [c]) = total cs + total [c] := by
  unfold total delivered failures
  rw [List.flatMap_append, List.countP_append, List.length_append]
  omega

/-- What calls leave in memory that are made where the total stands. -/
theorem stored_eq (m : Mem) (cs : List Call) (hoff : ∀ p c q, cs = p ++ c :: q → c.off = total p) :
    stored m cs = (tape m cs).mem m ∧ total cs = (tape m cs).pos := by
  induction cs using List.reverseRecOn with
  | nil => exact ⟨(store_nil _ _).symm, rfl⟩
  | append_singleton cs c ih =>
    obtain ⟨hstored, htotal⟩ := ih fun p x q hpq => hoff p x (q ++ [c]) (by rw [hpq]; simp)
    have hc : c.off = (tape m cs).pos := (hoff cs c [] rfl).trans htotal
    have hlast : stored m (cs ++ [c]) = store ((tape m cs).mem m) (tape m cs).pos c.bytes := by
      rw [← hstored, ← hc]
      exact List.foldl_append
    rw [hlast, total_snoc, htotal]
    obtain ⟨fd, off, len, _ | r⟩ := c
    · have hsame : tape m (cs ++ [⟨fd, off, len, none⟩]) = tape m cs := by simp [tape]
      rw [hsame, total_pending]
      exact ⟨store_nil _ _, Int.add_zero _⟩
    · have hnext : tape m (cs ++ [⟨fd, off, len, some r⟩]) = (tape m cs).next m r := by simp [tape]
      obtain ⟨hmem, hpos⟩ := next_mem m (tape m cs) r
      rw [hnext, hmem, hpos, total_answered, total_nil, Int.add_zero]
      exact ⟨rfl, rfl⟩

/-- The bytes in a buffer that is full. -/
theorem load_mem {t : Tape} {n : Nat} (h : t.pos = n) (old : Mem) : load (t.mem old) 0 n = t.frame := by
  unfold Tape.pos at h
  have hlen : t.frame.length = n := by
    rw [Tape.frame, List.length_drop]
    omega
  have hlow : (t.kept.take t.low).length = t.low := List.length_take_of_le (by omega)
  have hzero : -(t.low : Int) + (t.kept.take t.low).length = 0 := by omega
  have hall : t.kept.take t.low ++ t.frame = t.kept := List.take_append_drop t.low t.kept
  have hend : -(t.low : Int) + t.kept.length = n := by omega
  have hmem : t.mem old = store (store (store old (-t.low) (t.kept.take t.low)) 0 t.frame) n t.back := by
    rw [← hzero, store_store, hall, ← hend, store_store]
    rfl
  rw [hmem, load_store_out _ _ _ (Or.inl (by omega)), ← hlen, load_store_same]

/-! ## The memory that is checked -/

section

variable {κ ε : Type} {size : SizeT} {go : Bool} {buffer : Mem} {r : Run κ ε}

/-- Without failures: what was received, and the old content behind it. -/
theorem load_stored (h : Books size go 0 buffer r) (h0 : failures r.calls = 0) :
    (delivered r.calls).length ≤ size.val ∧
      load (stored buffer r.calls) 0 size.val = delivered r.calls ++ leftover buffer size r.calls := by
  have hle : (delivered r.calls).length ≤ size.val := by
    have hbelow := h.below (by omega) r.calls [] (List.append_nil _).symm
    unfold total at hbelow
    omega
  refine ⟨hle, ?_⟩
  rw [stored_contiguous r.calls 0 buffer h0 fun p c q hpq => (h.place p c q hpq).1]
  conv => lhs; rw [show size.val = (delivered r.calls).length + (size.val - (delivered r.calls).length) by omega, load_add]
  rw [load_store_same, load_store_out _ _ _ (Or.inr (by omega)), Int.zero_add]
  rfl

theorem check_short (h : Books size go 0 buffer r) (hsize : 2 ≤ size.val) (h0 : failures r.calls = 0)
    (h31 : size.val < 2 ^ 31) :
    checkCrc (stored buffer r.calls) (toInt size.val) = frameOk (delivered r.calls ++ leftover buffer size r.calls) := by
  rw [toInt_of_lt (by omega) (by omega), checkCrc_load _ hsize, (load_stored h h0).2]

theorem stored_tape (h : Books size go 0 buffer r) :
    stored buffer r.calls = (tape buffer r.calls).mem buffer ∧ total r.calls = (tape buffer r.calls).pos := by
  refine stored_eq buffer r.calls ?_
  intro p c q hpq
  rw [(h.place p c q hpq).1, Int.zero_add]

/-- A count returned on a verdict, otherwise -1. -/
theorem vouched_verdict (verdict : Bool) (m : Int) (cs : List Call) :
    Vouched (if verdict then m else -1) cs ↔
      verdict = false ∨ m < 0 ∨ (m = (delivered cs).length ∧ 2 ≤ (delivered cs).length ∧ frameOk (delivered cs) = true) := by
  unfold Vouched
  cases verdict
  · rw [if_neg Bool.false_ne_true]
    exact ⟨fun _ => Or.inl rfl, fun _ hneg => absurd hneg (by decide)⟩
  · rw [if_pos rfl]
    constructor
    · intro hv
      by_cases hneg : m < 0
      · exact Or.inr (Or.inl hneg)
      · obtain ⟨h2, hlen, hf⟩ := hv (by omega)
        exact Or.inr (Or.inr ⟨hlen.symm, by omega, hf⟩)
    · intro h h0
      rcases h with hno | hneg | ⟨hlen, h2, hf⟩
      · cases hno
      · omega
      · exact ⟨by omega, hlen.symm, hf⟩

/-! ## When a read vouches -/

/-- A read without failures, of a size that is an `int`. -/
theorem vouched_unfailing (h : Books size go 0 buffer r) (hsize : 2 ≤ size.val) (h31 : size.val < 2 ^ 31)
    (h0 : failures r.calls = 0) :
    Vouched (if checkCrc (stored buffer r.calls) (toInt size.val) then toInt (total r.calls) else -1) r.calls ↔
      (delivered r.calls).length = size.val ∨
        frameOk (delivered r.calls ++ leftover buffer size r.calls) = false ∨
        (2 ≤ (delivered r.calls).length ∧ frameOk (delivered r.calls) = true) := by
  have hle := (load_stored h h0).1
  have htot : toInt (total r.calls) = (delivered r.calls).length := by
    rw [toInt_of_lt] <;> unfold total <;> omega
  rw [vouched_verdict, check_short h hsize h0 h31, htot]
  constructor
  · intro h
    rcases h with hno | hneg | ⟨-, hf⟩
    · exact Or.inr (Or.inl hno)
    · omega
    · exact Or.inr (Or.inr hf)
  · intro h
    rcases h with hall | hno | hf
    · -- nothing is left over, so the bytes received are the frame checked
      have hnil : leftover buffer size r.calls = [] := by
        rw [leftover, hall, Nat.sub_self, load_zero]
      rw [hnil, List.append_nil]
      cases hok : frameOk (delivered r.calls)
      · exact Or.inl rfl
      · exact Or.inr (Or.inr ⟨rfl, by omega, rfl⟩)
    · exact Or.inl hno
    · exact Or.inr (Or.inr ⟨rfl, hf⟩)

/-- What `n` is worth where a read until `size` returns: `size`, as far as a `size_t` tells. -/
theorem total_until (h : Books size true 0 buffer r) {n : Int} (hn : r.status = .returned n) :
    total r.calls % 2 ^ 64 = size.val ∧ -2 ^ 63 ≤ total r.calls ∧ total r.calls ≤ size.val := by
  have hval : n = total r.calls := by rw [h.value n hn, Int.zero_add]
  have hfull := toSizeT_val n
  rw [h.full n hn rfl] at hfull
  have hfits := fitsSsize_iff.mp (h.fits n hn r.calls [] (List.append_nil _).symm h.called)
  have hbelow := h.below (by omega) r.calls [] (List.append_nil _).symm
  rw [Int.zero_add] at hfits hbelow
  rw [← hval] at hfits hbelow ⊢
  exact ⟨hfull.symm, hfits.1, hbelow⟩

/-- A read until `size` in which a call has failed. -/
theorem vouched_failing (h : Books size true 0 buffer r) {n : Int} (hn : r.status = .returned n) (hsize : 2 ≤ size.val)
    (h31 : size.val < 2 ^ 31) (h0 : failures r.calls ≠ 0) :
    Vouched (if checkCrc (stored buffer r.calls) (toInt size.val) then toInt (total r.calls) else -1) r.calls ↔
      frameOk (tape buffer r.calls).frame = false := by
  obtain ⟨hmod, hlow, hhigh⟩ := total_until h hn
  have htotal : total r.calls = size.val := by omega
  obtain ⟨hstored, hpos⟩ := stored_tape h
  have hint : toInt size.val = size.val := toInt_of_lt (by omega) (by omega)
  have hcheck : checkCrc (stored buffer r.calls) (toInt size.val) = frameOk (tape buffer r.calls).frame := by
    rw [hint, checkCrc_load _ hsize, hstored, load_mem (by rw [← hpos, htotal])]
  -- more bytes were received than the count says
  have hmore : (delivered r.calls).length ≠ size.val := by
    unfold total at htotal
    omega
  rw [vouched_verdict, hcheck, htotal, hint]
  constructor
  · intro h
    rcases h with hno | hneg | ⟨hlen, -⟩
    · exact hno
    · omega
    · omega
  · exact Or.inl

/-- A read until a `size` that is no `int`. -/
theorem vouched_until (h : Books size true 0 buffer r) {n : Int} (hn : r.status = .returned n) :
    Vouched (if checkCrc (stored buffer r.calls) (toInt size.val) then toInt (total r.calls) else -1) r.calls ↔
      toInt size.val < 0 ∨ checkCrc ((tape buffer r.calls).mem buffer) (toInt size.val) = false ∨
        ((delivered r.calls).length = toInt size.val ∧ 2 ≤ (delivered r.calls).length ∧
          frameOk (delivered r.calls) = true) := by
  obtain ⟨hmod, -, -⟩ := total_until h hn
  have hint : toInt (total r.calls) = toInt size.val := by
    refine Int.bmod_eq_bmod_iff_bmod_sub_eq_zero.mpr (Int.bmod_eq_zero_of_dvd ?_)
    push_cast
    omega
  rw [vouched_verdict, hint, (stored_tape h).1]
  constructor
  · intro h
    rcases h with hno | hneg | ⟨hlen, hf⟩
    · exact Or.inr (Or.inl hno)
    · exact Or.inl hneg
    · exact Or.inr (Or.inr ⟨hlen.symm, hf⟩)
  · intro h
    rcases h with hneg | hno | ⟨hlen, hf⟩
    · exact Or.inr (Or.inl hneg)
    · exact Or.inl hno
    · exact Or.inr (Or.inr ⟨hlen.symm, hf⟩)

/-- A single call that fails. -/
theorem vouched_once_failed (h : Books size false 0 buffer r) (h0 : failures r.calls ≠ 0) (verdict : Bool) :
    Vouched (if verdict then toInt (total r.calls) else -1) r.calls := by
  obtain ⟨c, hc⟩ := h.single rfl
  obtain ⟨fd, off, len, _ | _ | _⟩ := c
  · rw [hc] at h0
    exact absurd rfl h0
  · rw [hc] at h0
    exact absurd rfl h0
  · refine (vouched_verdict verdict _ _).mpr (Or.inr (Or.inl ?_))
    rw [hc, total_answered]
    decide

/-- A single call that asks for a `size` that is no `int`. -/
theorem vouched_once (h : Books size false 0 buffer r) (h0 : failures r.calls = 0) :
    Vouched (if checkCrc (stored buffer r.calls) (toInt size.val) then toInt (total r.calls) else -1) r.calls ↔
      toInt (delivered r.calls).length < 0 ∨ checkCrc (store buffer 0 (delivered r.calls)) (toInt size.val) = false ∨
        ((delivered r.calls).length < 2 ^ 31 ∧ 2 ≤ (delivered r.calls).length ∧ frameOk (delivered r.calls) = true) := by
  have htotal : total r.calls = (delivered r.calls).length := by
    unfold total
    omega
  have hint : toInt (delivered r.calls).length = (delivered r.calls).length ↔ (delivered r.calls).length < 2 ^ 31 := by
    have hlt := toInt_lt (delivered r.calls).length
    constructor
    · intro heq
      omega
    · intro hshort
      exact toInt_of_lt (by omega) (by omega)
  rw [vouched_verdict, htotal, stored_contiguous r.calls 0 buffer h0 fun p c q hpq => (h.place p c q hpq).1, hint]
  exact or_left_comm

theorem vouched_iff (h : Books size go 0 buffer r) (hsize : 2 ≤ size.val) {n : Int} (hn : r.status = .returned n) :
    Vouched (retval true size r.buf n) r.calls ↔ Sound buffer size go r.calls := by
  have hval : n = total r.calls := by rw [h.value n hn, Int.zero_add]
  rw [h.mem, hval, retval, if_pos rfl]
  unfold Sound
  dsimp only
  by_cases h31 : size.val < 2 ^ 31
  · rw [if_pos h31]
    by_cases h0 : failures r.calls = 0
    · rw [if_pos h0]
      exact vouched_unfailing h hsize h31 h0
    · rw [if_neg h0]
      cases go with
      | false => exact iff_of_true (vouched_once_failed h h0 _) (Or.inl rfl)
      | true =>
        rw [or_iff_right Bool.true_eq_false.mp]
        exact vouched_failing h hn hsize h31 h0
  · rw [if_neg h31]
    cases go with
    | true => exact vouched_until h hn
    | false =>
      by_cases h0 : failures r.calls = 0
      · rw [if_neg Bool.false_ne_true, or_iff_right (not_not.mpr h0)]
        exact vouched_once h h0
      · exact iff_of_true (vouched_once_failed h h0 _) (Or.inl h0)

end

/-! ## The clients -/

theorem readBody_vouched_iff {κ ε : Type} (d : Device κ ε) {fd : Int} {buffer : Mem} {size : SizeT} {readUntil : Bool}
    {k : κ} {es : List ε} {ret : Int} (hsize : 2 ≤ size.val)
    (h : (readBody d fd buffer size true readUntil k es).status = .returned ret) :
    Vouched ret (readBody d fd buffer size true readUntil k es).calls ↔
      Sound buffer size readUntil (readBody d fd buffer size true readUntil k es).calls := by
  obtain ⟨n, hn, rfl⟩ := readBody_returned.mp h
  rw [readBody_calls]
  exact vouched_iff (readCalls_books d fd buffer size readUntil k es) hsize hn

/-- A checked read of any client, connected if it is one of a stream, vouches for a frame it
    has received exactly when `Sound` holds of its results and of the old content of the
    buffer. -/
theorem checked_read_vouches_iff (size : SizeT) (hsize : 2 ≤ size.val) (buffer : Mem) (readUntil : Bool) (c : Client) :
    (∀ (t : StreamClient) (inbox : List Byte) (es : List Answer) (ret : Int), c.isConnected = true →
      (t.readS c buffer size true readUntil inbox es).status = .returned ret →
        (Vouched ret (t.readS c buffer size true readUntil inbox es).calls ↔
          Sound buffer size readUntil (t.readS c buffer size true readUntil inbox es).calls)) ∧
    (∀ (es : List Dgram) (ret : Int), (UDP.readS c buffer size true readUntil es).status = .returned ret →
      (Vouched ret (UDP.readS c buffer size true readUntil es).calls ↔
        Sound buffer size readUntil (UDP.readS c buffer size true readUntil es).calls)) := by
  constructor
  · intro t inbox es ret hc h
    rw [streamClient_readS, if_pos hc] at h ⊢
    exact readBody_vouched_iff stream hsize h
  · intro es ret h
    exact readBody_vouched_iff datagrams hsize h

/-- A frame in two pieces; and a call that fails, so that the next one stores the first of its
    three bytes before the buffer, and the other two are checked and are no frame. -/
theorem checked_read_two_zeros :
    Vouched 2 (TCP.readS someClient (fun _ => 1) 2 true true [0, 0, 7] [.upto 1, .upto 1]).calls ∧
      Vouched (-1) (TCP.readS someClient (fun _ => 1) 2 true true [5, 1, 0, 7] [.error, .upto 3]).calls := by
  obtain ⟨hread, -⟩ := checked_read_vouches_iff 2 (by decide) (fun _ => 1) true someClient
  refine ⟨?_, ?_⟩
  · exact (hread .tcp [0, 0, 7] [.upto 1, .upto 1] 2 rfl (by decide +kernel)).mpr (by decide +kernel)
  · exact (hread .tcp [5, 1, 0, 7] [.error, .upto 3] (-1) rfl (by decide +kernel)).mpr (by decide +kernel)

/-- A serial timeout on a zeroed buffer: the read returns 0, not -1. -/
theorem a_timeout_passes_the_check :
    let r := Serial.readS someClient (fun _ => 0) 4 true false [] [.upto 0]
    r.status = .returned 0 ∧ delivered r.calls = [] ∧ ¬ Vouched 0 r.calls := by
  decide +kernel

end ComClient.Transport
