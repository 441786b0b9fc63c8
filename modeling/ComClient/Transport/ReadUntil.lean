/-
  ComClient.Transport.ReadUntil — the loop of `readS(.., read_until = true)`.

  The loop adds the value of each call to its running total `n` and passes
  `buffer + n` and `size - n` to the next one. A failed call returns -1, so it moves
  `n` back by one byte; a call at the end of the stream returns 0, so it moves nothing.

  (1) Bounds (`read_in_bounds_iff`): every call of the loop stays inside the buffer
  exactly while the bytes received cover the failures so far. A failure before the
  first byte writes in front of the buffer (`a_failed_first_call_writes_before_the_buffer`).

  (2) Integrity (`read_intact_iff`): a read that returns `size` has taken exactly
  `size` bytes of the stream, in order, exactly when no call failed before the others
  were offered `size` bytes. Each failure overwrites the last byte received and takes
  one more from the stream (`a_failed_call_drops_a_byte`).

  (3) End of the stream (`read_ends_iff`): with fewer than `size` bytes to come, the
  loop never ends once the peer has closed. Once the connection is broken it counts
  down to the `n` that casts to `size`, which a `ssize_t` reaches for sizes from 2^63
  only.
-/

import ComClient.Transport.ReadLoop

namespace ComClient.Transport

/-! ## (1) Bounds -/

def InBuffer (size : SizeT) (c : Call) : Prop := 0 ≤ c.off ∧ c.off + c.len ≤ size.val

instance (size : SizeT) (c : Call) : Decidable (InBuffer size c) := inferInstanceAs (Decidable (_ ∧ _))

/-- Before every call, no more failures than bytes received. -/
def Covered (cs : List Call) : Prop := ∀ p c q, cs = p ++ c :: q → failures p ≤ (delivered p).length

theorem inBuffer_iff_covered {κ ε : Type} {size : SizeT} {go : Bool} {buf : Mem} {r : Run κ ε}
    (h : Books size go 0 buf r) : (∀ c ∈ r.calls, InBuffer size c) ↔ Covered r.calls := by
  constructor
  · intro hin p c q hpq
    have hc := hin c (by rw [hpq]; exact List.mem_append_right _ (List.mem_cons_self ..))
    have hoff := (h.place p c q hpq).1
    have h0 : 0 ≤ c.off := hc.1
    unfold total at hoff
    omega
  · intro hcov c hc
    obtain ⟨p, q, hpq⟩ := List.append_of_mem hc
    obtain ⟨hoff, hlen⟩ := h.place p c q hpq
    have hle := h.below (by omega) p (c :: q) hpq
    have hnn := hcov p c q hpq
    have hroom := room size c.off
    have hsize := size.isLt
    rw [← hlen] at hroom
    unfold total at hoff hle
    exact ⟨by omega, by omega⟩

/-- The calls of the read loops, of any client, all stay inside `buffer[0..size)`
    exactly when before each of them no more calls have failed than bytes arrived. -/
theorem read_in_bounds_iff (c : Client) (buffer : Mem) (size : SizeT) (hasCrc : Bool) :
    (∀ (t : StreamClient) (inbox : List Byte) (es : List Answer),
      (∀ x ∈ (t.readS c buffer size hasCrc true inbox es).calls, InBuffer size x) ↔
        Covered (t.readS c buffer size hasCrc true inbox es).calls) ∧
    (∀ (es : List Dgram),
      (∀ x ∈ (UDP.readS c buffer size hasCrc true es).calls, InBuffer size x) ↔
        Covered (UDP.readS c buffer size hasCrc true es).calls) := by
  constructor
  · intro t inbox es
    rw [streamClient_readS]
    split
    · rw [readBody_calls]
      exact inBuffer_iff_covered (readCalls_books stream c.fd buffer size true inbox es)
    · constructor
      · intro _ p c' q h
        simp [notConnected] at h
      · intro _ x hx
        cases hx
  · intro es
    unfold UDP.readS
    rw [readBody_calls]
    exact inBuffer_iff_covered (readCalls_books datagrams c.fd buffer size true c.addrTo es)

/-- `recv` fails at once: the next call is given `buffer - 1` and `size + 1`. -/
theorem a_failed_first_call_writes_before_the_buffer :
    (TCP.readS someClient (fun _ => 0) 4 false true [1, 2, 3, 4, 5] [.error, .upto 5]).calls =
      [⟨3, 0, 4, some .fail⟩, ⟨3, -1, 5, some (.data [1, 2, 3, 4, 5])⟩] ∧
    ¬ ∀ x ∈ (TCP.readS someClient (fun _ => 0) 4 false true [1, 2, 3, 4, 5] [.error, .upto 5]).calls,
      InBuffer 4 x := by
  decide

/-! ## (2) Integrity -/

/-- The first `size` bytes of the stream are in the buffer, and no others were taken. -/
def Intact (size : SizeT) (inbox : List Byte) (r : Run (List Byte) Answer) : Prop :=
  load r.buf 0 size.val = inbox.take size.val ∧ r.kernel = inbox.drop size.val ∧ size.val ≤ inbox.length

instance (size : SizeT) (inbox : List Byte) (r : Run (List Byte) Answer) : Decidable (Intact size inbox r) :=
  inferInstanceAs (Decidable (_ ∧ _))

/-- No call fails before the others are offered `need` bytes. -/
def unfailing : Nat → List Answer → Bool
  | _, [] => true
  | _, .error :: _ => false
  | need, .upto k :: es => need ≤ k || unfailing (need - k) es

theorem failures_iff_unfailing {fd : Int} {size : SizeT} {m : Int} (need : Nat) (n : Int) (buf : Mem)
    (inbox : List Byte) (es : List Answer) (h0 : 0 ≤ n) (hn : n + need = size.val) (hin : need ≤ inbox.length)
    (h : (callsFrom stream fd size true n buf inbox es).status = .returned m) :
    failures (callsFrom stream fd size true n buf inbox es).calls = 0 ↔ unfailing need es = true := by
  have hsize := size.isLt
  induction es generalizing need n buf inbox with
  | nil => cases h
  | cons e es ih =>
  cases e with
  | error =>
    have hfail : ∀ (len : Nat) (cs : List Call), failures (⟨fd, n, len, some .fail⟩ :: cs) ≠ 0 := by
      intro len cs
      rw [failures_cons]
      exact Nat.succ_ne_zero _
    have hnone : failures (callsFrom stream fd size true n buf inbox (.error :: es)).calls ≠ 0 := by
      rw [callsFrom_error]
      dsimp only
      split
      · split
        · exact hfail _ _
        · exact hfail _ _
      · exact hfail _ _
    exact ⟨fun h => absurd h hnone, fun h => by cases h⟩
  | upto k =>
    have hroom := room size n
    have hone : ∀ (len : Nat) (bs : List Byte) (cs : List Call),
        failures (⟨fd, n, len, some (.data bs)⟩ :: cs) = failures cs := fun len bs cs => failures_cons _ cs
    rw [callsFrom_upto (m := min k need) (by omega) (by omega)] at h ⊢
    dsimp only at h ⊢
    by_cases hfit : fitsSsize (n + (min k need : Nat)) = true
    · rw [if_pos hfit] at h ⊢
      by_cases hlast : need ≤ k
      · rw [if_neg (fun hne => hne.1 (toSizeT_eq (by omega)))]
        simp only [unfailing, hlast, decide_true, Bool.true_or, iff_true]
        rw [hone, failures_nil]
      · rw [if_pos ⟨toSizeT_ne_of_lt (by omega) (by omega), rfl⟩] at h ⊢
        simp only [unfailing, hlast, decide_false, Bool.false_or]
        rw [Run.after_calls, hone]
        refine ih (need - k) _ _ _ (by omega) (by omega) (by rw [List.length_drop]; omega) ?_
        exact h
    · rw [if_neg hfit] at h
      cases h

/-- The total of a loop that returns `size`. -/
theorem total_of_full {size : SizeT} {n : Int} (hfull : toSizeT n = size) (hfit : fitsSsize n = true)
    (hret : toInt n = size.val) : n = size.val := by
  have h1 := toSizeT_val n
  have h2 := toInt_lt n
  rw [hfull] at h1
  rw [fitsSsize_iff] at hfit
  omega

theorem intact_iff {fd : Int} {size : SizeT} {buffer : Mem} {inbox : List Byte} {es : List Answer}
    {r : Run (List Byte) Answer} (hr : r = readCalls stream fd buffer size true inbox es)
    (hn : r.status = .returned size.val) :
    size.val ≤ inbox.length ∧ (Intact size inbox r ↔ failures r.calls = 0) := by
  have hb := readCalls_books stream fd buffer size true inbox es
  have hs := stream_consumed fd size true 0 buffer inbox es
  rw [← readCalls_eq, ← hr] at hs
  rw [← hr] at hb
  have hval := hb.value _ hn
  have hlen := congrArg List.length hs
  rw [List.length_append] at hlen
  unfold total at hval
  refine ⟨by omega, ?_⟩
  constructor
  · intro hi
    obtain ⟨-, hk, hle⟩ := hi
    rw [hk, List.length_drop] at hlen
    omega
  · intro h0
    have hd : (delivered r.calls).length = size.val := by omega
    have hst : r.buf = store buffer 0 (delivered r.calls) := by
      rw [hb.mem, stored_contiguous r.calls 0 buffer h0 fun p c q h => (hb.place p c q h).1]
    refine ⟨?_, ?_, by omega⟩
    · rw [hst, ← hd, load_store_same, hs, List.take_left]
    · rw [← hd, hs, List.drop_left]

/-- A read that returns `size` is intact exactly when no call failed before the others
    were offered `size` bytes. -/
theorem read_intact_iff (t : StreamClient) (c : Client) (buffer : Mem) (size : SizeT) (inbox : List Byte)
    (es : List Answer) (h : (t.readS c buffer size false true inbox es).status = .returned size.val) :
    Intact size inbox (t.readS c buffer size false true inbox es) ↔
      unfailing size.val es = true := by
  rw [streamClient_readS] at h ⊢
  split
  · rename_i hc
    rw [if_pos hc] at h
    obtain ⟨n, hn, hret⟩ := readBody_returned.mp h
    have hb := readCalls_books stream c.fd buffer size true inbox es
    have hfit := hb.fits n hn _ [] (List.append_nil _).symm hb.called
    rw [← hb.value n hn] at hfit
    have hsz : n = size.val := total_of_full (hb.full n hn rfl) hfit hret.symm
    rw [hsz] at hn
    obtain ⟨hin, hiff⟩ := intact_iff rfl hn
    rw [readCalls_eq] at hn hiff
    simp only [Intact, readBody_buf, readBody_kernel]
    rw [readCalls_eq]
    exact hiff.trans (failures_iff_unfailing size.val 0 buffer inbox es (by omega) (by omega) hin hn)
  · rename_i hc
    rw [if_neg hc] at h
    simp only [notConnected, Status.returned.injEq] at h
    omega

/-- The second call fails after one byte: the read returns 2 with the second and third
    byte of the stream, and has taken all three. -/
theorem a_failed_call_drops_a_byte :
    let r := TCP.readS someClient (fun _ => 0) 2 false true [1, 2, 3] [.upto 1, .error, .upto 2]
    r.status = .returned 2 ∧ load r.buf 0 2 = [2, 3] ∧ r.kernel = [] ∧ ¬ Intact 2 [1, 2, 3] r := by
  decide

theorem read_intact_whole :
    Intact 2 [1, 2, 3] (TCP.readS someClient (fun _ => 0) 2 false true [1, 2, 3] [.upto 1, .upto 5]) :=
  (read_intact_iff .tcp someClient (fun _ => 0) 2 [1, 2, 3] [.upto 1, .upto 5] (by decide)).mpr (by decide)

/-! ## (3) The end of the stream -/

/-- With the stream delivered in `pieces` and every later call answered by `later`, the
    read returns after finitely many calls, with fewer than `size` bytes or -1. -/
def Ends (c : Client) (buffer : Mem) (size : SizeT) (hasCrc : Bool) (inbox : List Byte) (pieces : List Nat)
    (later : Answer) : Prop :=
  ∃ j ret, (TCP.readS c buffer size hasCrc true inbox (pieces.map .upto ++ List.replicate j later)).status =
    .returned ret ∧ (ret < size.val ∨ ret = -1)

/-- One piece that does not complete the read. -/
theorem callsFrom_piece (fd : Int) {size : SizeT} {n : Int} (buf : Mem) {inbox : List Byte} (es : List Answer) {k : Nat}
    (hk : k ≤ inbox.length) (h0 : 0 ≤ n) (hlt : n + inbox.length < size.val) :
    (callsFrom stream fd size true n buf inbox (.upto k :: es)).status =
      if fitsSsize (n + k) then
        (callsFrom stream fd size true (n + k) (store buf n (inbox.take k)) (inbox.drop k) es).status
      else .undefined := by
  have hroom := room size n
  have hsize := size.isLt
  rw [callsFrom_upto (m := k) (by omega) hk]
  dsimp only
  split
  · rw [if_pos ⟨toSizeT_ne_of_lt (by omega) (by omega), rfl⟩]
    rfl
  · rfl

/-- The pieces leave the loop at the length of the stream, if a `ssize_t` holds it. -/
theorem callsFrom_pieces (fd : Int) (size : SizeT) (es : List Answer) (pieces : List Nat) (n : Int) (buf : Mem)
    (inbox : List Byte) (hsum : pieces.sum = inbox.length) (h0 : 0 ≤ n) (h63 : n < 2 ^ 63)
    (hlt : n + inbox.length < size.val) :
    (2 ^ 63 ≤ n + inbox.length →
      (callsFrom stream fd size true n buf inbox (pieces.map .upto ++ es)).status = .undefined) ∧
    (n + inbox.length < 2 ^ 63 →
      ∃ buf', (callsFrom stream fd size true n buf inbox (pieces.map .upto ++ es)).status =
        (callsFrom stream fd size true (n + inbox.length) buf' [] es).status) := by
  induction pieces generalizing n buf inbox with
  | nil =>
    have hnil : inbox = [] := List.eq_nil_of_length_eq_zero hsum.symm
    subst hnil
    refine ⟨fun h => ?_, fun _ => ⟨buf, ?_⟩⟩
    · simp only [List.length_nil] at h; omega
    · show (callsFrom stream fd size true n buf [] es).status = (callsFrom stream fd size true (n + 0) buf [] es).status
      rw [Int.add_zero]
  | cons k pieces ih =>
    rw [List.sum_cons] at hsum
    have hst := callsFrom_piece fd buf (pieces.map .upto ++ es) (show k ≤ inbox.length by omega) h0 hlt
    have hdrop : (inbox.drop k).length = inbox.length - k := List.length_drop
    rw [List.map_cons, List.cons_append, hst]
    by_cases hfit : fitsSsize (n + k) = true
    · rw [if_pos hfit]
      rw [fitsSsize_iff] at hfit
      have hnext := ih (n + k) (store buf n (inbox.take k)) (inbox.drop k) (by omega) (by omega) hfit.2 (by omega)
      rw [hdrop, show n + k + ((inbox.length - k : Nat) : Int) = n + inbox.length by omega] at hnext
      exact hnext
    · rw [if_neg hfit]
      rw [fitsSsize_iff] at hfit
      exact ⟨fun _ => rfl, fun h => absurd ⟨by omega, by omega⟩ hfit⟩

/-- Failures count down to the total that casts to `size`. -/
theorem callsFrom_errors {fd : Int} {size : SizeT} (j : Nat) (n : Int) (buf : Mem) (inbox : List Byte)
    (hj : n - (j + 1 : Nat) = size.val - 2 ^ 64) (hlo : 2 ^ 63 ≤ size.val) (hn : n < size.val) (h63 : n < 2 ^ 63) :
    (callsFrom stream fd size true n buf inbox (List.replicate (j + 1) .error)).status =
      .returned (size.val - 2 ^ 64) := by
  induction j generalizing n buf with
  | zero =>
    have hfit : fitsSsize (n + -1) = true := fitsSsize_iff.mpr ⟨by omega, by omega⟩
    have hdone : toSizeT (n + -1) = size := toSizeT_eq (by omega)
    rw [List.replicate_succ, callsFrom_error]
    simp only [hfit, hdone, if_true, ne_eq, not_true_eq_false, false_and, if_false, Status.returned.injEq]
    omega
  | succ j ih =>
    have hfit : fitsSsize (n + -1) = true := fitsSsize_iff.mpr ⟨by omega, by omega⟩
    rw [List.replicate_succ, callsFrom_error]
    simp only [hfit, if_true]
    rw [if_pos ⟨toSizeT_ne_of_lt (by omega) (by omega), trivial⟩]
    exact ih (n + -1) _ (by omega) (by omega) (by omega)

/-- A read that returns before `size` bytes arrived has met failures, down to a total
    below zero that casts to `size`. -/
theorem early_return {fd : Int} {size : SizeT} {buffer : Mem} {inbox : List Byte} {es : List Answer} {n : Int}
    (hlt : inbox.length < size.val) (hn : (readCalls stream fd buffer size true inbox es).status = .returned n) :
    Answer.error ∈ es ∧ 2 ^ 63 ≤ size.val := by
  have hb := readCalls_books stream fd buffer size true inbox es
  have hs := congrArg List.length (stream_consumed fd size true 0 buffer inbox es)
  obtain ⟨used, hused, hfail⟩ := stream_failures fd size true 0 buffer inbox es
  rw [← readCalls_eq, List.length_append] at hs
  rw [← readCalls_eq] at hused hfail
  have hval := hb.value n hn
  have hcast := toSizeT_val n
  have hfit := hb.fits n hn _ [] (List.append_nil _).symm hb.called
  rw [hb.full n hn rfl] at hcast
  rw [← hval, fitsSsize_iff] at hfit
  have hsize := size.isLt
  unfold total at hval
  refine ⟨?_, by omega⟩
  rw [hused]
  refine List.mem_append_left _ (List.count_pos_iff.mp ?_)
  omega

/-- An `int` is less than `size`. -/
theorem retval_lt (hasCrc : Bool) {size : SizeT} (buf : Mem) (n : Int) (h : 2 ^ 31 ≤ size.val) :
    retval hasCrc size buf n < size.val := by
  have hint := toInt_lt n
  unfold retval
  split
  · split <;> omega
  · omega

/-- With fewer than `size` bytes to come the read ends only over a broken connection,
    for a size from 2^63 on and a stream that a `ssize_t` counts. -/
theorem read_ends_iff (c : Client) (hc : c.isConnected = true) (buffer : Mem) (size : SizeT) (hasCrc : Bool)
    (inbox : List Byte) (pieces : List Nat) (later : Answer) (hsum : pieces.sum = inbox.length)
    (hlt : inbox.length < size.val) :
    Ends c buffer size hasCrc inbox pieces later ↔
      later = .error ∧ 2 ^ 63 ≤ size.val ∧ inbox.length < 2 ^ 63 := by
  have hread : ∀ es, TCP.readS c buffer size hasCrc true inbox es =
      readBody stream c.fd buffer size hasCrc true inbox es := fun es => by simp only [TCP.readS, hc, if_true]
  have hpieces := fun es => callsFrom_pieces c.fd size es pieces 0 buffer inbox hsum
    (by omega) (by omega) (by omega)
  constructor
  · intro hends
    obtain ⟨j, ret, hret, -⟩ := hends
    rw [hread] at hret
    obtain ⟨n, hn, -⟩ := readBody_returned.mp hret
    obtain ⟨herr, h63⟩ := early_return hlt hn
    refine ⟨?_, h63, ?_⟩
    · rcases List.mem_append.mp herr with h | h
      · obtain ⟨k, -, hk⟩ := List.mem_map.mp h
        cases hk
      · exact (List.eq_of_mem_replicate h).symm
    · apply Classical.byContradiction
      intro hbig
      rw [readCalls_eq, (hpieces _).1 (by omega)] at hn
      cases hn
  · intro hbroken
    obtain ⟨rfl, h63, hin⟩ := hbroken
    have hsize := size.isLt
    obtain ⟨j, hj⟩ : ∃ j : Nat, ((inbox.length : Int) - (j + 1 : Nat) = size.val - 2 ^ 64) :=
      ⟨inbox.length + (2 ^ 64 - size.val) - 1, by omega⟩
    obtain ⟨buf', hst⟩ := (hpieces (List.replicate (j + 1) .error)).2 (by omega)
    rw [Int.zero_add, callsFrom_errors j _ buf' [] hj h63 (by omega) (by omega), ← readCalls_eq] at hst
    have h31 : 2 ^ 31 ≤ size.val := by omega
    exact ⟨j + 1, _, by rw [hread]; exact readBody_returned.mpr ⟨_, hst, rfl⟩, Or.inl (retval_lt hasCrc _ _ h31)⟩

/-- Two of four bytes, then only zeros: however many calls are answered, the read has
    not returned. -/
theorem a_closed_peer_blocks_the_read : ¬ Ends someClient (fun _ => 0) 4 false [1, 2] [2] (.upto 4) := by
  intro hends
  obtain ⟨j, ret, hret, -⟩ := hends
  have hbody : (readBody stream 3 (fun _ => 0) 4 false true [1, 2]
    ([2].map .upto ++ List.replicate j (.upto 4))).status = .returned ret := hret
  obtain ⟨n, hn, -⟩ := readBody_returned.mp hbody
  exact absurd (early_return (by decide) hn).2 (by decide)

theorem read_ends_two_zeros : ¬ Ends someClient (fun _ => 0) 4 false [1, 2] [2] .error :=
  fun h => absurd ((read_ends_iff someClient rfl (fun _ => 0) 4 false [1, 2] [2] .error rfl (by decide)).mp h).2.1
    (by decide)

end ComClient.Transport
