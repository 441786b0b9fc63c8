/-
  ComClient.Client.Requests — what the repository itself does with a client of a byte stream:
  `Client::get_stat` (`src/include/com_client.hpp`) and the loop of `main`
  (`src/src/main.cpp`).

  Both write a request and read a reply of a fixed size into an array on the stack, and
  print from the array, whatever the two calls return: the loop its words as they are,
  `get_stat` the first, the third and the fourth and, as the deviation, the root of the
  second less the square of the first. A `float` or an `int32_t` of it is a word of four
  bytes.

  - `replies_are_paired`: over a stream without failures each of them prints from its own
    reply, in any order and number; a `get_stat` sends what the heap held behind its
    letter, and a round of `main` writes the last eight bytes of its reply past the array.
-/

import ComClient.Http.Code
import ComClient.Transport.Frames

namespace ComClient.Client

open ComClient.Http (load32)
open ComClient.Transport

/-- A call of `get_stat` with a positive size, or a round of the loop; with the memory around
    the block that `new` returns and around the array on the stack. -/
inductive Request where
  | stat (c : Byte) (pkgSize : Nat) (heap stack : Mem)
  | round (stack : Mem)

/-- What was handed to the kernel, how the read ended, the words that are printed from, and
    the array with what surrounds it. -/
structure Asked where
  sent : Option Sent
  status : Status
  shown : List (BitVec 32)
  mem : Mem
  inbox : List Byte
  rest : List Answer

def words (m : Mem) (n : Nat) : List (BitVec 32) := (List.range n).map fun i : Nat => load32 m (4 * i)

section

variable (t : StreamClient) (c : Client) (accept : List Byte → Int)

/-- `float vals[4]; this->readS((uint8_t *)vals, 16);` -/
def getStat (letter : Byte) (pkgSize : Nat) (heap stack : Mem) (inbox : List Byte) (es : List Answer) : Asked :=
  let buf := store heap 0 [letter]
  let w := t.writeS c accept buf (toSizeT pkgSize) false
  let r := t.readS c stack (toSizeT 16) false true inbox es
  ⟨w.sent, r.status, words r.buf 4, r.buf, r.kernel, r.rest⟩

/-- `uint8_t buff[24] = {'1'}; … int tot = 32; int n = device->readS(buff, tot, false);` -/
def mainRound (stack : Mem) (inbox : List Byte) (es : List Answer) : Asked :=
  let buff := store stack 0 (49 :: List.replicate 23 0)
  let w := t.writeS c accept buff (toSizeT 1) false
  let r := t.readS c w.buffer (toSizeT 32) false true inbox es
  ⟨w.sent, r.status, words r.buf 8, r.buf, r.kernel, r.rest⟩

def Request.ask (inbox : List Byte) (es : List Answer) : Request → Asked
  | .stat letter pkgSize heap stack => getStat t c accept letter pkgSize heap stack inbox es
  | .round stack => mainRound t c accept stack inbox es

/-- One after another, until a read does not come back. -/
def askAll : List Request → List Byte → List Answer → List Asked
  | [], _, _ => []
  | q :: qs, inbox, es =>
    let r := q.ask t c accept inbox es
    match r.status with
    | .returned _ => r :: askAll qs r.inbox r.rest
    | _ => [r]

end

/-- The size of the reply. -/
def Request.want : Request → Nat
  | .stat .. => 16
  | .round _ => 32

/-- The size of the array. -/
def Request.room : Request → Nat
  | .stat .. => 16
  | .round _ => 24

/-- How many words are printed from. -/
def Request.count : Request → Nat
  | .stat .. => 4
  | .round _ => 8

/-- A letter; `get_stat` sends as much of its block as it was told to. -/
def Request.request : Request → List Byte
  | .stat letter pkgSize heap _ => letter :: load heap 1 (pkgSize - 1)
  | .round _ => [49]

def Request.stack : Request → Mem
  | .stat _ _ _ stack => stack
  | .round stack => stack

/-- `new` is given a size that an `int` holds, with room for the letter. -/
def Request.Sized : Request → Prop
  | .stat _ pkgSize _ _ => 0 < pkgSize ∧ pkgSize < 2 ^ 31
  | .round _ => True

def wanted (qs : List Request) : Nat := (qs.map Request.want).sum

/-- The reply is what is printed from and what the array holds, and what follows it on the stack
    if the array is too small; the rest of the stack is as it was. -/
structure Replied (c : Client) (q : Request) (reply : List Byte) (r : Asked) : Prop where
  status : r.status = .returned q.want
  sent : r.sent = some ⟨c.fd, q.request, none⟩
  shown : r.shown = words (memOf reply) q.count
  past : load r.mem q.room (q.want - q.room) = reply.drop q.room
  outside : ∀ i : Int, i < 0 ∨ q.want ≤ i → r.mem i = q.stack i

variable {t : StreamClient} {c : Client}

/-! ## One request -/

theorem words_congr {m m' : Mem} {n : Nat} (h : ∀ i : Int, 0 ≤ i → i < 4 * n → m i = m' i) : words m n = words m' n := by
  refine List.map_congr_left ?_
  intro i hi
  have hlt := List.mem_range.mp hi
  unfold load32
  rw [h _ (by omega) (by omega), h _ (by omega) (by omega), h _ (by omega) (by omega), h _ (by omega) (by omega)]

/-- An unchecked read that waits for `size` bytes. -/
theorem read_reply (hc : c.isConnected = true) (size : SizeT) (hpos : 0 < size.val) (h31 : size.val < 2 ^ 31) (into : Mem)
    {inbox : List Byte} (hin : size.val ≤ inbox.length) {f : Nat → Answer} (hf : Steady t f) :
    ∃ u, ∀ es, let r := t.readS c into size false true inbox (firsts f u ++ es)
      r.status = .returned size.val ∧ r.buf = store into 0 (inbox.take size.val) ∧ r.kernel = inbox.drop size.val ∧
        r.rest = es := by
  obtain ⟨u, hu⟩ := callsFrom_fills c.fd h31 size.val 0 into inbox f (Nat.zero_add _) hpos hin (steady_serial hf)
  refine ⟨u, fun es => ?_⟩
  have h := hu es
  rw [Nat.cast_zero, ← readCalls_eq] at h
  dsimp only
  rw [streamClient_readS, if_pos hc, readBody_buf, readBody_kernel, readBody_rest]
  refine ⟨readBody_returned.mpr ⟨_, h.status, ?_⟩, h.buf, h.kernel, h.rest⟩
  rw [retval, if_neg Bool.false_ne_true, toInt_of_lt (by omega) (by omega)]

theorem writeS_plain (accept : List Byte → Int) (hc : c.isConnected = true) (m : Mem) {size : Nat} (hsize : size < 2 ^ 31) :
    (t.writeS c accept m (toSizeT size) false).sent = some ⟨c.fd, load m 0 size, none⟩ ∧
      (t.writeS c accept m (toSizeT size) false).buffer = m := by
  have hval : (wireSize (toSizeT size) false).val = size := by
    have hcast := toSizeT_val size
    rw [wireSize, if_neg Bool.false_ne_true, add_zero]
    omega
  cases t <;> simp [StreamClient.writeS, TCP.writeS, Serial.writeS, hc, handOver, hval]

/-- What a reply that was stored at the start of the array means for a request. -/
theorem replied_of_stored {q : Request} {reply : List Byte} {r : Asked} {m : Mem} (hlen : reply.length = q.want)
    (hstatus : r.status = .returned q.want) (hsent : r.sent = some ⟨c.fd, q.request, none⟩)
    (hshown : r.shown = words r.mem q.count) (hmem : r.mem = store m 0 reply)
    (hm : ∀ i : Int, i < 0 ∨ q.want ≤ i → m i = q.stack i) : Replied c q reply r := by
  have hroom : q.room ≤ q.want := by cases q <;> simp [Request.room, Request.want]
  have hcount : 4 * q.count = q.want := by cases q <;> rfl
  refine ⟨hstatus, hsent, ?_, ?_, ?_⟩
  · rw [hshown, hmem]
    refine words_congr ?_
    intro i h0 hi
    rw [memOf, store_in _ _ _ h0 (by omega), store_in _ _ _ h0 (by omega)]
  · have hwhole := load_store_same m 0 reply
    rw [← hmem, hlen, show q.want = q.room + (q.want - q.room) by omega, load_add, zero_add] at hwhole
    have hfirst : (load r.mem 0 q.room).length = q.room := by simp [load]
    rw [← hwhole, List.drop_left' hfirst]
  · intro i hi
    rw [hmem, store_out _ _ _ (by omega), hm i hi]

theorem ask_replied (accept : List Byte → Int) (hc : c.isConnected = true) {q : Request} (hq : q.Sized) {inbox : List Byte}
    (hin : q.want ≤ inbox.length) {f : Nat → Answer} (hf : Steady t f) :
    ∃ u, ∀ es, Replied c q (inbox.take q.want) (q.ask t c accept inbox (firsts f u ++ es)) ∧
      (q.ask t c accept inbox (firsts f u ++ es)).inbox = inbox.drop q.want ∧
      (q.ask t c accept inbox (firsts f u ++ es)).rest = es := by
  cases q with
  | stat letter pkgSize heap stack =>
    obtain ⟨u, hu⟩ := read_reply hc (toSizeT 16) (by decide) (by decide) stack hin hf
    refine ⟨u, fun es => ?_⟩
    obtain ⟨hstatus, hbuf, hkernel, hrest⟩ := hu es
    obtain ⟨hsent, -⟩ := writeS_plain (t := t) accept hc (store heap 0 [letter]) hq.2
    have hload : load (store heap 0 [letter]) 0 pkgSize = letter :: load heap 1 (pkgSize - 1) := by
      have hfirst := load_store_same heap 0 [letter]
      have hpos := hq.1
      rw [show pkgSize = [letter].length + (pkgSize - 1) by simp only [List.length_singleton]; omega, load_add, hfirst,
        load_store_out _ _ _ (Or.inr (by simp))]
      simp
    refine ⟨replied_of_stored (m := stack) (List.length_take_of_le hin) hstatus ?_ rfl hbuf fun _ _ => rfl, hkernel, hrest⟩
    rw [hload] at hsent
    exact hsent
  | round stack =>
    obtain ⟨hsent, hbuffer⟩ := writeS_plain (t := t) accept hc (store stack 0 (49 :: List.replicate 23 0))
      (show 1 < 2 ^ 31 by decide)
    obtain ⟨u, hu⟩ := read_reply hc (toSizeT 32) (by decide) (by decide)
      (store stack 0 (49 :: List.replicate 23 0)) hin hf
    refine ⟨u, fun es => ?_⟩
    obtain ⟨hstatus, hbuf, hkernel, hrest⟩ := hu es
    rw [← hbuffer] at hstatus hbuf hkernel hrest
    refine ⟨replied_of_stored (List.length_take_of_le hin) hstatus hsent rfl hbuf ?_, hkernel, hrest⟩
    intro i hi
    rw [hbuffer]
    refine store_out _ _ _ ?_
    rcases hi with hi | hi
    · exact Or.inl hi
    · have hbehind : (0 : Int) + (49 :: List.replicate 23 (0 : Byte)).length ≤ 32 := by decide
      exact Or.inr (le_trans hbehind hi)

/-! ## Many requests -/

/-- However the stream is cut, calls of `get_stat` and rounds of `main` in any order and number:
    each sends its request and reads its own reply, the next that many bytes of the stream. -/
theorem replies_are_paired (accept : List Byte → Int) (hc : c.isConnected = true) (qs : List Request)
    (hqs : ∀ q ∈ qs, q.Sized) {inbox : List Byte} (hin : wanted qs ≤ inbox.length) {f : Nat → Answer} (hf : Steady t f) :
    ∃ u, ∀ es, (askAll t c accept qs inbox (firsts f u ++ es)).length = qs.length ∧
      ∀ j q r, qs[j]? = some q → (askAll t c accept qs inbox (firsts f u ++ es))[j]? = some r →
        Replied c q ((inbox.drop (wanted (qs.take j))).take q.want) r := by
  induction qs generalizing inbox f with
  | nil => exact ⟨0, fun es => ⟨rfl, fun j q r hq => by cases hq⟩⟩
  | cons q qs ih =>
    obtain ⟨hq, hqs⟩ := List.forall_mem_cons.mp hqs
    have hsum : wanted (q :: qs) = q.want + wanted qs := List.sum_cons
    have hfirst : q.want ≤ inbox.length := by omega
    have hothers : wanted qs ≤ (inbox.drop q.want).length := by
      rw [List.length_drop]
      omega
    obtain ⟨u, hu⟩ := ask_replied accept hc hq hfirst hf
    obtain ⟨v, hv⟩ := ih hqs hothers (steady_shift hf u)
    refine ⟨u + v, fun es => ?_⟩
    obtain ⟨hreplied, hinbox, hrest⟩ := hu (firsts (fun i => f (i + u)) v ++ es)
    obtain ⟨hlen, hall⟩ := hv es
    have hasked : askAll t c accept (q :: qs) inbox (firsts f (u + v) ++ es) =
        q.ask t c accept inbox (firsts f u ++ (firsts (fun i => f (i + u)) v ++ es)) ::
          askAll t c accept qs (inbox.drop q.want) (firsts (fun i => f (i + u)) v ++ es) := by
      rw [firsts_add, List.append_assoc]
      simp only [askAll, hreplied.status, hinbox, hrest]
    rw [hasked]
    refine ⟨congrArg (· + 1) hlen, fun j p r hp hr => ?_⟩
    cases j with
    | zero =>
      cases hp
      cases hr
      exact hreplied
    | succ j =>
      have hnext := hall j p r hp hr
      rw [List.drop_drop] at hnext
      rw [List.take_succ_cons, show wanted (q :: qs.take j) = q.want + wanted (qs.take j) from List.sum_cons]
      exact hnext

/-- A round of `main` and `get_stat('d')`. -/
def aRoundAndAStat : List Request := [.round fun _ => 0, .stat 100 6 (fun _ => 7) fun _ => 0]

def fortyEight : List Byte := (List.range 48).map (BitVec.ofNat 8)

theorem replies_are_paired_for_two :
    ∃ u, ∀ es, (askAll .tcp someClient (fun bs => bs.length) aRoundAndAStat fortyEight
        (firsts (fun _ => .upto 5) u ++ es)).length = 2 ∧
      ∀ q r, aRoundAndAStat[0]? = some q →
        (askAll .tcp someClient (fun bs => bs.length) aRoundAndAStat fortyEight
          (firsts (fun _ => .upto 5) u ++ es))[0]? = some r →
        load r.mem 24 8 = [24, 25, 26, 27, 28, 29, 30, 31] := by
  have hqs : ∀ q ∈ aRoundAndAStat, q.Sized := by
    intro q hq
    simp only [aRoundAndAStat, List.mem_cons, List.not_mem_nil, or_false] at hq
    rcases hq with rfl | rfl
    · trivial
    · exact ⟨by decide, by decide⟩
  have hsteady : Steady .tcp fun _ => .upto 5 := fun _ => ⟨5, by decide, rfl⟩
  have henough : wanted aRoundAndAStat ≤ fortyEight.length := by decide
  obtain ⟨u, hu⟩ := replies_are_paired (fun bs => bs.length) (c := someClient) rfl aRoundAndAStat hqs henough hsteady
  refine ⟨u, fun es => ?_⟩
  obtain ⟨hlen, hall⟩ := hu es
  refine ⟨hlen, fun q r hq hr => ?_⟩
  have hpast := (hall 0 q r hq hr).past
  cases hq
  exact hpast.trans (by decide)

end ComClient.Client
