/-
  ComClient.Transport.ReadLoop — the books of a run of `readS`.

  The first call of `readS` is the loop's own at `n = 0`, so a run is a do-while
  (`callsFrom`, `readCalls_eq`): call at `buffer + n` for `size - n` bytes, add what it
  returned, go on while `(size_t)n != size`. Everything later modules need of it is in
  `Books`, proved by one induction over the events (`callsFrom_books`): where each call
  wrote, what `n` is worth at every point, what is in the buffer at the end. `n` is not
  the number of bytes received but that number less the number of failed calls
  (`total`), since a failed call adds its -1.

  Over a byte stream the calls take its bytes in order (`stream_consumed`), and no call
  fails unless an answer was an error (`stream_failures`).
-/

import ComClient.Transport.Code

namespace ComClient.Transport

/-! ## Accounts of a list of calls -/

def Call.bytes (c : Call) : List Byte := (c.res.map Recv.bytes).getD []

def Call.failed (c : Call) : Bool := c.res == some .fail

def delivered (cs : List Call) : List Byte := cs.flatMap Call.bytes

def failures (cs : List Call) : Nat := cs.countP Call.failed

/-- What `n` is worth after the calls `cs`. -/
def total (cs : List Call) : Int := (delivered cs).length - failures cs

/-- What the calls leave in memory. -/
def stored (m : Mem) (cs : List Call) : Mem := cs.foldl (fun m c => store m c.off c.bytes) m

@[simp] theorem delivered_nil : delivered [] = [] := rfl
@[simp] theorem delivered_cons (c : Call) (cs : List Call) : delivered (c :: cs) = c.bytes ++ delivered cs := rfl
@[simp] theorem failures_nil : failures [] = 0 := rfl
@[simp] theorem total_nil : total [] = 0 := rfl
@[simp] theorem stored_nil (m : Mem) : stored m [] = m := rfl
@[simp] theorem stored_cons (m : Mem) (c : Call) (cs : List Call) :
    stored m (c :: cs) = stored (store m c.off c.bytes) cs := rfl

theorem failures_cons (c : Call) (cs : List Call) :
    failures (c :: cs) = failures cs + if c.failed then 1 else 0 := List.countP_cons

/-- An answered call moves `n` by its value. -/
theorem total_answered (fd off : Int) (len : Nat) (r : Recv) (cs : List Call) :
    total (⟨fd, off, len, some r⟩ :: cs) = r.ret + total cs := by
  unfold total
  rw [failures_cons, delivered_cons, List.length_append]
  cases r with
  | data bytes =>
    show ((bytes.length + (delivered cs).length : Nat) : Int) - ((failures cs + 0 : Nat) : Int) = bytes.length + _
    omega
  | fail =>
    show ((0 + (delivered cs).length : Nat) : Int) - ((failures cs + 1 : Nat) : Int) = -1 + _
    omega

theorem total_pending (fd off : Int) (len : Nat) (cs : List Call) :
    total (⟨fd, off, len, none⟩ :: cs) = total cs := by
  unfold total
  rw [failures_cons, delivered_cons, List.length_append]
  show ((0 + (delivered cs).length : Nat) : Int) - ((failures cs + 0 : Nat) : Int) = _
  omega

/-! ## The run as a do-while -/

section

variable {κ ε : Type} (d : Device κ ε)

@[simp] theorem Run.after_calls (c : Call) (r : Run κ ε) : (r.after c).calls = c :: r.calls := rfl
@[simp] theorem Run.after_buf (c : Call) (r : Run κ ε) : (r.after c).buf = r.buf := rfl
@[simp] theorem Run.after_kernel (c : Call) (r : Run κ ε) : (r.after c).kernel = r.kernel := rfl

/-- A call at `n`, and more while `go` and `(size_t)n != size`. -/
def callsFrom (fd : Int) (size : SizeT) (go : Bool) (n : Int) (buf : Mem) (k : κ) : List ε → Run κ ε
  | [] => ⟨[⟨fd, n, (size - toSizeT n).val, none⟩], .blocked, buf, k, []⟩
  | e :: es =>
    let len := (size - toSizeT n).val
    let a := d.answer k e len
    let c : Call := ⟨fd, n, len, some a.1⟩
    let buf' := store buf n a.1.bytes
    if fitsSsize (n + a.1.ret) then
      if toSizeT (n + a.1.ret) ≠ size ∧ go = true then
        (callsFrom fd size go (n + a.1.ret) buf' a.2 es).after c
      else ⟨[c], .returned (n + a.1.ret), buf', a.2, es⟩
    else ⟨[c], .undefined, buf', a.2, es⟩

theorem readLoop_done {fd : Int} {size : SizeT} {n : Int} (h : toSizeT n = size) (buf : Mem) (k : κ) (es : List ε) :
    readLoop d fd size n buf k es = ⟨[], .returned n, buf, k, es⟩ := by
  cases es <;> simp only [readLoop, h, if_true]

theorem readLoop_eq (fd : Int) (size : SizeT) (n : Int) (h : toSizeT n ≠ size) (buf : Mem) (k : κ) (es : List ε) :
    readLoop d fd size n buf k es = callsFrom d fd size true n buf k es := by
  induction es generalizing n buf k with
  | nil => simp only [readLoop, callsFrom, h, if_false]
  | cons e es ih =>
    simp only [readLoop, callsFrom, h, if_false, and_true]
    split
    · split
      · rw [ih _ ‹_›]
      · rw [readLoop_done d (not_not.mp ‹_›)]; rfl
    · rfl

theorem readCalls_eq (fd : Int) (buffer : Mem) (size : SizeT) (readUntil : Bool) (k : κ) (es : List ε) :
    readCalls d fd buffer size readUntil k es = callsFrom d fd size readUntil 0 buffer k es := by
  have h0 : size - toSizeT 0 = size := sub_zero size
  cases es with
  | nil => simp only [readCalls, callsFrom, h0]
  | cons e es =>
    simp only [readCalls, callsFrom, h0, zero_add]
    split
    · split
      · rename_i h
        rw [readLoop_eq d _ _ _ h.1, h.2]
      · rfl
    · rfl

/-! ## The books -/

/-- What is asked for at `n`. -/
theorem room (size : SizeT) (n : Int) : ((size - toSizeT n).val : Int) = (size.val - n) % 2 ^ 64 := by
  have h := toSizeT_val n
  rw [Fin.val_sub]
  omega

/-- No transfer takes `n` past `size`. -/
theorem step_le {size : SizeT} {n : Int} (hn : n ≤ size.val) {r : Recv}
    (hr : r.bytes.length ≤ (size - toSizeT n).val) : n + r.ret ≤ size.val := by
  have hroom := room size n
  cases r with
  | data bytes =>
    have : bytes.length ≤ (size - toSizeT n).val := hr
    show n + (bytes.length : Int) ≤ size.val
    omega
  | fail => show n + -1 ≤ size.val; omega

/-- The books of a run from `n`. -/
structure Books (size : SizeT) (go : Bool) (n : Int) (buf : Mem) (r : Run κ ε) : Prop where
  /-- Every call is made where the total stands, for what is left. -/
  place : ∀ p c q, r.calls = p ++ c :: q → c.off = n + total p ∧ c.len = (size - toSizeT c.off).val
  below : n ≤ size.val → ∀ p q, r.calls = p ++ q → n + total p ≤ size.val
  /-- Every total of a run that returns was a `ssize_t`. -/
  fits : ∀ m, r.status = .returned m → ∀ p q, r.calls = p ++ q → p ≠ [] → fitsSsize (n + total p) = true
  value : ∀ m, r.status = .returned m → m = n + total r.calls
  full : ∀ m, r.status = .returned m → go = true → toSizeT m = size
  single : go = false → ∃ c, r.calls = [c]
  called : r.calls ≠ []
  mem : r.buf = stored buf r.calls

/-- A run of one call. -/
theorem books_one {size : SizeT} {go : Bool} {n : Int} {buf buf' : Mem} {k : κ} {es : List ε} {st : Status} (c : Call)
    (hoff : c.off = n) (hlen : c.len = (size - toSizeT n).val)
    (hbelow : n ≤ size.val → n + total [c] ≤ size.val)
    (hst : ∀ m, st = .returned m → m = n + total [c] ∧ fitsSsize m = true ∧ (go = true → toSizeT m = size))
    (hbuf : buf' = store buf n c.bytes) : Books size go n buf (⟨[c], st, buf', k, es⟩ : Run κ ε) := by
  refine ⟨?_, ?_, ?_, fun m h => (hst m h).1, fun m h => (hst m h).2.2, fun _ => ⟨c, rfl⟩, by simp, ?_⟩
  · intro p c' q h
    cases p with
    | nil =>
      obtain ⟨rfl, -⟩ := List.cons.inj h
      exact ⟨by simp [hoff], by rw [hlen, hoff]⟩
    | cons x p => simp at h
  · intro hn p q h
    cases p with
    | nil => simpa using hn
    | cons x p =>
      simp only [List.cons_append, List.cons.injEq, List.nil_eq, List.append_eq_nil_iff] at h
      obtain ⟨rfl, rfl, -⟩ := h
      exact hbelow hn
  · intro m h p q hpq hp
    cases p with
    | nil => exact absurd rfl hp
    | cons x p =>
      simp only [List.cons_append, List.cons.injEq, List.nil_eq, List.append_eq_nil_iff] at hpq
      obtain ⟨rfl, rfl, -⟩ := hpq
      obtain ⟨h1, h2, -⟩ := hst m h
      rw [← h1]; exact h2
  · simp [hbuf, hoff]

/-- A call before the rest of a run. -/
theorem books_after {size : SizeT} {n : Int} {buf : Mem} {r : Run κ ε} {fd : Int} {a : Recv}
    (hin : a.bytes.length ≤ (size - toSizeT n).val) (hfit : fitsSsize (n + a.ret) = true)
    (h : Books size true (n + a.ret) (store buf n a.bytes) r) :
    Books size true n buf (r.after ⟨fd, n, (size - toSizeT n).val, some a⟩) := by
  refine ⟨?_, ?_, ?_, ?_, h.full, by simp, by simp [Run.after], ?_⟩
  · intro p c q hpq
    cases p with
    | nil =>
      obtain ⟨rfl, -⟩ := List.cons.inj hpq
      exact ⟨by simp, rfl⟩
    | cons x p =>
      obtain ⟨rfl, hq⟩ := List.cons.inj hpq
      rw [total_answered, ← Int.add_assoc]
      exact h.place p c q hq
  · intro hn p q hpq
    cases p with
    | nil => simpa using hn
    | cons x p =>
      obtain ⟨rfl, hq⟩ := List.cons.inj hpq
      rw [total_answered, ← Int.add_assoc]
      exact h.below (step_le hn hin) p q hq
  · intro m hm p q hpq hp
    cases p with
    | nil => exact absurd rfl hp
    | cons x p =>
      obtain ⟨rfl, hq⟩ := List.cons.inj hpq
      rw [total_answered, ← Int.add_assoc]
      cases p with
      | nil => simpa using hfit
      | cons y p => exact h.fits m hm (y :: p) q hq (by simp)
  · intro m hm
    show m = n + total (_ :: r.calls)
    rw [total_answered, ← Int.add_assoc]
    exact h.value m hm
  · exact h.mem

theorem callsFrom_books (fd : Int) (size : SizeT) (go : Bool) (n : Int) (buf : Mem) (k : κ) (es : List ε) :
    Books size go n buf (callsFrom d fd size go n buf k es) := by
  induction es generalizing n buf k with
  | nil =>
    refine books_one _ rfl rfl (fun hn => ?_) (fun m h => by cases h) ?_
    · rw [total_pending]; simpa using hn
    · show buf = store buf n []; simp
  | cons e es ih =>
    have hin := d.within k e (size - toSizeT n).val
    have hone : total [(⟨fd, n, (size - toSizeT n).val, some (d.answer k e (size - toSizeT n).val).1⟩ : Call)] =
        (d.answer k e (size - toSizeT n).val).1.ret := by rw [total_answered]; simp
    simp only [callsFrom]
    split
    · rename_i hfit
      split
      · rename_i hgo
        obtain ⟨-, rfl⟩ := hgo
        exact books_after hin hfit (ih _ _ _)
      · rename_i hstop
        refine books_one _ rfl rfl (fun hn => ?_) (fun m h => ?_) rfl
        · rw [hone]; exact step_le hn hin
        · cases h
          refine ⟨by rw [hone], hfit, fun hg => ?_⟩
          exact Classical.byContradiction fun hne => hstop ⟨hne, hg⟩
    · refine books_one _ rfl rfl (fun hn => ?_) (fun m h => by cases h) rfl
      rw [hone]; exact step_le hn hin

theorem readCalls_books (fd : Int) (buffer : Mem) (size : SizeT) (readUntil : Bool) (k : κ) (es : List ε) :
    Books size readUntil 0 buffer (readCalls d fd buffer size readUntil k es) := by
  rw [readCalls_eq]; exact callsFrom_books d fd size readUntil 0 buffer k es

end

/-! ## The value returned -/

section

variable {κ ε : Type} {d : Device κ ε} {fd : Int} {buffer : Mem} {size : SizeT} {hasCrc readUntil : Bool} {k : κ}
  {es : List ε}

@[simp] theorem readBody_calls :
    (readBody d fd buffer size hasCrc readUntil k es).calls = (readCalls d fd buffer size readUntil k es).calls := by
  unfold readBody; dsimp only; split <;> rfl

@[simp] theorem readBody_buf :
    (readBody d fd buffer size hasCrc readUntil k es).buf = (readCalls d fd buffer size readUntil k es).buf := by
  unfold readBody; dsimp only; split <;> rfl

@[simp] theorem readBody_kernel :
    (readBody d fd buffer size hasCrc readUntil k es).kernel = (readCalls d fd buffer size readUntil k es).kernel := by
  unfold readBody; dsimp only; split <;> rfl

@[simp] theorem readBody_rest :
    (readBody d fd buffer size hasCrc readUntil k es).rest = (readCalls d fd buffer size readUntil k es).rest := by
  unfold readBody; dsimp only; split <;> rfl

theorem readBody_returned {ret : Int} :
    (readBody d fd buffer size hasCrc readUntil k es).status = .returned ret ↔
      ∃ n, (readCalls d fd buffer size readUntil k es).status = .returned n ∧
        ret = retval hasCrc size (readCalls d fd buffer size readUntil k es).buf n := by
  unfold readBody
  dsimp only
  split
  · rename_i n hn
    rw [hn]
    simp only [Status.returned.injEq]
    constructor
    · intro h
      exact ⟨n, rfl, h.symm⟩
    · intro h
      obtain ⟨m, rfl, hm⟩ := h
      exact hm.symm
  · rename_i hn
    constructor
    · intro h
      exact absurd h (hn ret)
    · intro h
      obtain ⟨m, hm, -⟩ := h
      exact absurd hm (hn m)

end

theorem streamClient_readS (t : StreamClient) (c : Client) (buffer : Mem) (size : SizeT) (hasCrc readUntil : Bool)
    (inbox : List Byte) (es : List Answer) :
    t.readS c buffer size hasCrc readUntil inbox es =
      if c.isConnected then readBody stream c.fd buffer size hasCrc readUntil inbox es
      else notConnected buffer inbox es := by
  cases t <;> rfl

/-- Without a failure the calls write one stretch. -/
theorem stored_contiguous (cs : List Call) (n : Int) (m : Mem) (h0 : failures cs = 0)
    (hoff : ∀ p c q, cs = p ++ c :: q → c.off = n + total p) : stored m cs = store m n (delivered cs) := by
  induction cs generalizing n m with
  | nil => simp
  | cons c cs ih =>
    rw [failures_cons] at h0
    have hc : c.off = n := by simpa using hoff [] c cs rfl
    have hstep : ∀ p, n + total (c :: p) = n + c.bytes.length + total p := by
      intro p
      have hf : c.failed = false := by
        cases hf : c.failed
        · rfl
        · rw [hf] at h0; simp at h0
      unfold total
      rw [failures_cons, hf, delivered_cons, List.length_append]
      simp only [Bool.false_eq_true, if_false]
      omega
    rw [stored_cons, hc, delivered_cons, ← store_store]
    refine ih _ _ (by omega) fun p c' q hpq => ?_
    rw [← hstep]
    exact hoff (c :: p) c' q (by rw [hpq]; rfl)

/-! ## Over a stream -/

/-- A call that gets `m` bytes. -/
theorem callsFrom_upto {fd : Int} {size : SizeT} {go : Bool} {n : Int} {buf : Mem} {inbox : List Byte}
    {es : List Answer} {k m : Nat} (hm : min k (size - toSizeT n).val = m) (hin : m ≤ inbox.length) :
    callsFrom stream fd size go n buf inbox (.upto k :: es) =
      let c : Call := ⟨fd, n, (size - toSizeT n).val, some (.data (inbox.take m))⟩
      let buf' := store buf n (inbox.take m)
      if fitsSsize (n + m) then
        if toSizeT (n + m) ≠ size ∧ go = true then
          (callsFrom stream fd size go (n + m) buf' (inbox.drop m) es).after c
        else ⟨[c], .returned (n + m), buf', inbox.drop m, es⟩
      else ⟨[c], .undefined, buf', inbox.drop m, es⟩ := by
  have hret : (Recv.data (inbox.take m)).ret = m := by
    show ((inbox.take m).length : Int) = m
    rw [List.length_take, Nat.min_eq_left hin]
  simp only [callsFrom, stream, hm, hret, Recv.bytes]

/-- A call that fails. -/
theorem callsFrom_error {fd : Int} {size : SizeT} {go : Bool} {n : Int} {buf : Mem} {inbox : List Byte}
    {es : List Answer} :
    callsFrom stream fd size go n buf inbox (.error :: es) =
      let c : Call := ⟨fd, n, (size - toSizeT n).val, some .fail⟩
      if fitsSsize (n + -1) then
        if toSizeT (n + -1) ≠ size ∧ go = true then (callsFrom stream fd size go (n + -1) buf inbox es).after c
        else ⟨[c], .returned (n + -1), buf, inbox, es⟩
      else ⟨[c], .undefined, buf, inbox, es⟩ := by
  simp only [callsFrom, stream, Recv.ret, Recv.bytes, store_nil]

theorem stream_consumed (fd : Int) (size : SizeT) (go : Bool) (n : Int) (buf : Mem) (inbox : List Byte)
    (es : List Answer) :
    inbox = delivered (callsFrom stream fd size go n buf inbox es).calls ++
      (callsFrom stream fd size go n buf inbox es).kernel := by
  induction es generalizing n buf inbox with
  | nil => rfl
  | cons e es ih =>
    have hone : ∀ len, inbox = (stream.answer inbox e len).1.bytes ++ (stream.answer inbox e len).2 := by
      intro len
      cases e with
      | upto k => exact (List.take_append_drop _ _).symm
      | error => rfl
    simp only [callsFrom]
    split
    · split
      · rw [Run.after_calls, Run.after_kernel, delivered_cons, List.append_assoc, ← ih]
        exact hone _
      · show inbox = (_ ++ []) ++ _
        rw [List.append_nil]; exact hone _
    · show inbox = (_ ++ []) ++ _
      rw [List.append_nil]; exact hone _

/-- The failed calls are the error answers used up. -/
theorem stream_failures (fd : Int) (size : SizeT) (go : Bool) (n : Int) (buf : Mem) (inbox : List Byte)
    (es : List Answer) :
    ∃ used, es = used ++ (callsFrom stream fd size go n buf inbox es).rest ∧
      failures (callsFrom stream fd size go n buf inbox es).calls = used.count .error := by
  induction es generalizing n buf inbox with
  | nil => exact ⟨[], rfl, rfl⟩
  | cons e es ih =>
    have hone : ∀ len, (⟨fd, n, len, some (stream.answer inbox e len).1⟩ : Call).failed = (e == .error) := by
      intro len
      cases e <;> rfl
    simp only [callsFrom]
    split
    · split
      · obtain ⟨used, h1, h2⟩ := ih _ (store buf n _) _
        refine ⟨e :: used, congrArg (e :: ·) h1, ?_⟩
        show failures (_ :: _) = _
        rw [failures_cons, h2, hone, List.count_cons]
      · refine ⟨[e], rfl, ?_⟩
        rw [failures_cons, hone, List.count_cons]; rfl
    · refine ⟨[e], rfl, ?_⟩
      rw [failures_cons, hone, List.count_cons]; rfl

end ComClient.Transport
