/-
  ComClient.Transport.Verdict — which bytes a checked read looks at, once its calls have
  filled the buffer.

  `check_CRC` takes the `size_t` as an `int` and subtracts 2, and nobody has compared
  `size` with anything: sizes of 0 and 1, and those that are negative or below 2 as an
  `int`, have it load a trailer from before the buffer.

  - `check_inside_iff`: the reads stay inside a buffer of `size` bytes if and only if
    `size` modulo 2^32 is at least 2 and below 2^31.
  - `value_around`: and then what lies around the buffer does not bear on the value
    returned.
-/

import ComClient.Transport.ReadLoop
import ComClient.Crc.Reads

namespace ComClient.Transport

open ComClient.Crc

/-- The end of `readS`, after calls that left `n`. -/
def verdict (hasCrc : Bool) (size : SizeT) (n : Int) : Option (Probe Int Byte Int) :=
  if hasCrc then (checkCrcProbe (toInt size.val)).map fun check => check.andThen fun ok => .done (if ok then toInt n else -1)
  else some (.done (toInt n))

theorem verdict_value {hasCrc : Bool} {size : SizeT} {n : Int} {p : Probe Int Byte Int}
    (h : verdict hasCrc size n = some p) (m : Mem) : p.value m = retval hasCrc size m n := by
  unfold verdict at h
  cases hasCrc with
  | false =>
    rw [if_neg Bool.false_ne_true, Option.some.injEq] at h
    rw [← h, Probe.value_done, retval, if_neg Bool.false_ne_true]
  | true =>
    rw [if_pos rfl] at h
    obtain ⟨check, hcheck, rfl⟩ := Option.map_eq_some_iff.mp h
    rw [Probe.value_andThen, checkCrcProbe_value hcheck, Probe.value_done, retval, if_pos rfl]

theorem verdict_reads {size : SizeT} {n : Int} {p : Probe Int Byte Int} (h : verdict true size n = some p) (m : Mem) :
    p.reads m = indices (toInt size.val - 2) ++ [toInt size.val - 2, toInt size.val - 2 + 1] := by
  rw [verdict, if_pos rfl] at h
  obtain ⟨check, hcheck, rfl⟩ := Option.map_eq_some_iff.mp h
  rw [Probe.reads_andThen, Probe.reads_done, List.append_nil, checkCrcProbe_reads hcheck]

/-- The end of the run has a value, which the run has returned, and finds it inside a buffer of
    `size` bytes. -/
structure CheckInside {κ ε : Type} (size : SizeT) (r : Run κ ε) (p : Probe Int Byte Int) : Prop where
  verdict : verdict true size (total r.calls) = some p
  returned : r.status = .returned (p.value r.buf)
  inside : ∀ i ∈ p.reads r.buf, 0 ≤ i ∧ i < size.val

section

variable {κ ε : Type} {size : SizeT} {r : Run κ ε}

/-- The value is the same whatever lies around the buffer. -/
theorem value_around {p : Probe Int Byte Int} (h : CheckInside size r p) {m : Mem}
    (hm : ∀ i : Int, 0 ≤ i → i < size.val → m i = r.buf i) :
    r.status = .returned (retval true size m (total r.calls)) := by
  have hvalue : p.value m = p.value r.buf := by
    refine Probe.value_local ?_
    intro i hi
    obtain ⟨h0, hlt⟩ := h.inside i hi
    exact hm i h0 hlt
  rw [h.returned, ← hvalue, verdict_value h.verdict]

theorem check_iff {ret : Int} (hstatus : r.status = .returned ret)
    (hret : ret = retval true size r.buf (total r.calls)) :
    (∃ p, CheckInside size r p) ↔ 2 ≤ size.val % 2 ^ 32 ∧ size.val % 2 ^ 32 < 2 ^ 31 := by
  have hcheck := checkCrc_inside_iff (toInt_lt size.val) (toInt_le (Int.natCast_nonneg size.val)) r.buf
  have hcond := two_le_toInt_iff size.val
  have hmod : (2 ≤ (size.val : Int) % 2 ^ 32 ∧ (size.val : Int) % 2 ^ 32 < 2 ^ 31) ↔
      (2 ≤ size.val % 2 ^ 32 ∧ size.val % 2 ^ 32 < 2 ^ 31) := by
    omega
  rw [← hmod, ← hcond, ← hcheck]
  constructor
  · intro h
    obtain ⟨p, hp⟩ := h
    have hverdict := hp.verdict
    rw [verdict, if_pos rfl] at hverdict
    obtain ⟨check, hsome, rfl⟩ := Option.map_eq_some_iff.mp hverdict
    refine ⟨check, hsome, ?_⟩
    intro i hi
    refine hp.inside i ?_
    rw [Probe.reads_andThen]
    exact List.mem_append_left _ hi
  · intro h
    obtain ⟨check, hsome, hin⟩ := h
    have hverdict : verdict true size (total r.calls) =
        some (check.andThen fun ok => .done (if ok then toInt (total r.calls) else -1)) := by
      rw [verdict, if_pos rfl, hsome]
      rfl
    refine ⟨_, hverdict, ?_, ?_⟩
    · rw [hstatus, hret, verdict_value hverdict]
    · simpa using hin

end

theorem readBody_check_iff {κ ε : Type} (d : Device κ ε) {fd : Int} {buffer : Mem} {size : SizeT} {readUntil : Bool}
    {k : κ} {es : List ε} {ret : Int} (h : (readBody d fd buffer size true readUntil k es).status = .returned ret) :
    (∃ p, CheckInside size (readBody d fd buffer size true readUntil k es) p) ↔
      2 ≤ size.val % 2 ^ 32 ∧ size.val % 2 ^ 32 < 2 ^ 31 := by
  obtain ⟨n, hn, hret⟩ := readBody_returned.mp h
  have hbooks := readCalls_books d fd buffer size readUntil k es
  have htotal : n = total (readBody d fd buffer size true readUntil k es).calls := by
    rw [readBody_calls, hbooks.value n hn, Int.zero_add]
  refine check_iff h ?_
  rw [← htotal, readBody_buf]
  exact hret

/-- A checked read of any client, connected if it is one of a stream, looks at nothing but its
    buffer if and only if `size` modulo 2^32 is at least 2 and below 2^31. -/
theorem check_inside_iff (size : SizeT) (buffer : Mem) (readUntil : Bool) (c : Client) :
    (∀ (t : StreamClient) (inbox : List Byte) (es : List Answer) (ret : Int), c.isConnected = true →
      (t.readS c buffer size true readUntil inbox es).status = .returned ret →
        ((∃ p, CheckInside size (t.readS c buffer size true readUntil inbox es) p) ↔
          2 ≤ size.val % 2 ^ 32 ∧ size.val % 2 ^ 32 < 2 ^ 31)) ∧
    (∀ (es : List Dgram) (ret : Int), (UDP.readS c buffer size true readUntil es).status = .returned ret →
      ((∃ p, CheckInside size (UDP.readS c buffer size true readUntil es) p) ↔
        2 ≤ size.val % 2 ^ 32 ∧ size.val % 2 ^ 32 < 2 ^ 31)) := by
  refine ⟨?_, ?_⟩
  · intro t inbox es ret hc h
    rw [streamClient_readS, if_pos hc] at h ⊢
    exact readBody_check_iff stream h
  · intro es ret h
    exact readBody_check_iff datagrams h

theorem check_inside_iff_for_two_zeros :
    ((∃ p, CheckInside 2 (TCP.readS someClient (fun _ => 1) 2 true true [0, 0] [.upto 1, .upto 1]) p) ↔
        2 ≤ (2 : SizeT).val % 2 ^ 32 ∧ (2 : SizeT).val % 2 ^ 32 < 2 ^ 31) ∧
      ((∃ p, CheckInside 2 (UDP.readS someClient (fun _ => 1) 2 true true [.dgram ⟨1, 5000⟩ [0, 0]]) p) ↔
        2 ≤ (2 : SizeT).val % 2 ^ 32 ∧ (2 : SizeT).val % 2 ^ 32 < 2 ^ 31) := by
  obtain ⟨hstream, hdatagrams⟩ := check_inside_iff 2 (fun _ => 1) true someClient
  refine ⟨?_, ?_⟩
  · exact hstream .tcp [0, 0] [.upto 1, .upto 1] 2 rfl (by decide +kernel)
  · exact hdatagrams [.dgram ⟨1, 5000⟩ [0, 0]] 2 (by decide +kernel)

/-- One zero arrives in a buffer of one byte: the read returns 1 with a zero before the buffer,
    and -1 with a one there. -/
theorem a_frame_of_one_byte_is_checked_before_the_buffer :
    (∀ b, delivered (TCP.readS someClient (fun _ => b) 1 true true [0] [.upto 1]).calls = [0]) ∧
      (TCP.readS someClient (fun _ => 0) 1 true true [0] [.upto 1]).status = .returned 1 ∧
      (TCP.readS someClient (fun _ => 1) 1 true true [0] [.upto 1]).status = .returned (-1) ∧
      (∃ p, verdict true 1 1 = some p ∧ ∀ m, p.reads m = [-1, 0]) ∧
      ¬ ∃ p, CheckInside 1 (TCP.readS someClient (fun _ => 0) 1 true true [0] [.upto 1]) p := by
  have hreads : ∀ {n : Int} {p : Probe Int Byte Int}, verdict true 1 n = some p → ∀ m, p.reads m = [-1, 0] := by
    intro n p hp m
    rw [verdict_reads hp]
    decide
  have hsome : (verdict true 1 1).isSome = true := by decide +kernel
  refine ⟨fun b => rfl, by decide +kernel, by decide +kernel, ?_, ?_⟩
  · obtain ⟨p, hp⟩ := Option.isSome_iff_exists.mp hsome
    exact ⟨p, hp, hreads hp⟩
  · intro h
    obtain ⟨p, hp⟩ := h
    have hfirst := (hp.inside (-1) (by rw [hreads hp.verdict]; exact List.mem_cons_self)).1
    exact absurd hfirst (by decide)

end ComClient.Transport
