/-
  ComClient.Http.Counted — calls of `get` and `post` that say how many bytes they want.

  With an `n` of the caller's `readS` reads until it has `n` bytes, however TCP cuts the
  stream. So the calls on one connection cut what the server sends into stretches of their
  own lengths (`pieces`), and what lies between two responses is nowhere marked.

  - `counted_calls`: each call makes its outcome of its own stretch, short of its last byte,
    over which it writes the terminator; the stretches are the responses if and only if every
    `n` is the length of the response; and then no body comes back whole.
-/

import ComClient.Http.Body
import ComClient.Transport.Frames

namespace ComClient.Http

open ComClient.Transport ComClient.Libc

inductive Method where
  | get
  | post (content : Option CStr)

/-- A call, and what it meets. -/
structure Ask where
  method : Method
  page : CStr
  n : Nat
  response : List Byte
  heap : Mem
  /-- How TCP cuts what `recv` is offered. -/
  answers : Nat → Answer

def HTTP.call (h : HTTP) (accept : List Byte → Int) (x : Ask) (inbox : List Byte) (es : List Answer) : Posted :=
  match x.method with
  | .get => h.get accept x.heap x.page x.n inbox es
  | .post content => h.post accept x.heap x.page content x.n inbox es

/-- The calls of one client on one connection, each with the first `u` of its answers: what
    they made of the responses, and what they left of them. -/
def counted (accept : List Byte → Int) (u : Nat) : HTTP → List Byte → List Ask → List (Outcome × List Byte)
  | _, _, [] => []
  | h, inbox, x :: xs =>
    let r := h.call accept x (inbox ++ x.response) (firsts x.answers u)
    (r.outcome, r.inbox) :: counted accept u { h with mem := r.mem } r.inbox xs

/-- What a method makes of the `n` bytes that it wanted. -/
def Method.parse (n : Nat) (bytes : List Byte) : Method → Outcome
  | .get => getParse (received n bytes)
  | .post _ => postParse (terminated n (bytes.take (n - 1))) (received n bytes)

def pieces : List Byte → List Ask → List (Outcome × List Byte)
  | _, [] => []
  | left, x :: xs =>
    let bytes := left ++ x.response
    (x.method.parse x.n (bytes.take x.n), bytes.drop x.n) :: pieces (bytes.drop x.n) xs

/-- No call wants more than the server has sent by then. -/
def Supplied : List Byte → List Ask → Prop
  | _, [] => True
  | left, x :: xs => x.n ≤ (left ++ x.response).length ∧ Supplied ((left ++ x.response).drop x.n) xs

/-! ## One read -/

/-- Calls that follow one another cover a stretch. -/
theorem any_covers {cs : List Call} (i : Nat) (m : Int) (h0 : failures cs = 0)
    (hoff : ∀ p c q, cs = p ++ c :: q → c.off = m + total p) :
    (cs.any fun c => decide (c.off ≤ i ∧ i < c.off + c.bytes.length)) =
      decide (m ≤ i ∧ i < m + (delivered cs).length) := by
  induction cs generalizing m with
  | nil =>
    rw [List.any_nil, delivered_nil, List.length_nil]
    exact (decide_eq_false (by omega)).symm
  | cons c cs ih =>
    rw [failures_cons] at h0
    have hf : c.failed = false := by
      cases hf : c.failed
      · rfl
      · rw [hf] at h0; simp at h0
    have hc : c.off = m := by simpa using hoff [] c cs rfl
    have hrest := ih (m + c.bytes.length) (by omega) ?_
    · rw [List.any_cons, hrest, hc, delivered_cons, List.length_append, Bool.eq_iff_iff]
      simp only [Bool.or_eq_true, decide_eq_true_iff]
      omega
    · intro p c' q hpq
      have hall := hoff (c :: p) c' q (by rw [hpq]; rfl)
      rw [hall]
      unfold total
      rw [failures_cons, hf, delivered_cons, List.length_append]
      simp only [Bool.false_eq_true, if_false]
      omega

/-- A steady stream fails no call. -/
theorem count_error_firsts {f : Nat → Answer} (hf : Steady .tcp f) (u : Nat) : (firsts f u).count .error = 0 := by
  refine List.count_eq_zero.mpr ?_
  intro h
  obtain ⟨i, -, hi⟩ := List.mem_map.mp h
  obtain ⟨k, -, hk⟩ := hf i
  rw [hk] at hi
  cases hi

/-- The block that such calls have filled. -/
theorem blockOf_full {n : Nat} {r : Run (List Byte) Answer} (heap : Mem) {bytes : List Byte} (h0 : failures r.calls = 0)
    (hoff : ∀ p c q, r.calls = p ++ c :: q → c.off = 0 + total p) (hdel : delivered r.calls = bytes)
    (hlen : bytes.length = n) (hbuf : r.buf = store heap 0 bytes) : blockOf n r = some (filled n bytes) := by
  have hinside : ∀ c ∈ r.calls, 0 ≤ c.off ∧ c.off + c.bytes.length ≤ n := by
    intro c hc
    obtain ⟨p, q, hpq⟩ := List.append_of_mem hc
    have hplace := hoff p c q hpq
    have hall := congrArg List.length (congrArg delivered hpq)
    have hnone : failures p = 0 := by
      have hsum := congrArg failures hpq
      unfold failures at hsum h0 ⊢
      rw [List.countP_append] at hsum
      omega
    rw [hdel, hlen] at hall
    unfold delivered at hall
    rw [List.flatMap_append, List.flatMap_cons, List.length_append, List.length_append] at hall
    unfold total at hplace
    rw [hnone] at hplace
    unfold delivered at hplace
    omega
  unfold blockOf
  rw [if_pos (List.all_eq_true.mpr fun c hc => decide_eq_true (hinside c hc))]
  congr 1
  have hfilled : filled n bytes = bytes.map some := by
    rw [filled, hlen, Nat.sub_self, List.replicate_zero, List.append_nil]
  rw [hfilled]
  apply List.ext_getElem
  · simp [hlen]
  · intro i h1 h2
    have hi : i < bytes.length := by simpa using h2
    simp only [List.getElem_map, List.getElem_range, any_covers i 0 h0 hoff, hdel, hbuf]
    rw [if_pos (decide_eq_true (by omega)), store_in _ _ _ (by omega) (by omega), show ((i : Int) - 0).toNat = i by omega,
      List.getD_eq_getElem _ _ hi]

/-- However the stream is cut, a read of `n` bytes gets the first `n` and leaves the others. -/
theorem readS_counted {tcp : Client} (hc : tcp.isConnected = true) {n : Nat} (hpos : 0 < n) (hn : n < 2 ^ 31) (heap : Mem)
    {inbox : List Byte} (hin : n ≤ inbox.length) {f : Nat → Answer} (hf : Steady .tcp f) :
    ∃ u, ∀ es, Delivers n (inbox.take n) (TCP.readS tcp heap (toSizeT n) false true inbox (firsts f u ++ es)) ∧
      (TCP.readS tcp heap (toSizeT n) false true inbox (firsts f u ++ es)).kernel = inbox.drop n := by
  have hsize : (toSizeT n).val = n := toSizeT_natCast (by omega)
  have h31 : (toSizeT n).val < 2 ^ 31 := by omega
  obtain ⟨u, hu⟩ := callsFrom_fills tcp.fd h31 n 0 heap inbox f (by omega) hpos hin (steady_serial hf)
  refine ⟨u, fun es => ?_⟩
  have hfills := hu es
  have hbooks := readCalls_books stream tcp.fd heap (toSizeT n) true inbox (firsts f u ++ es)
  have htaken := stream_consumed tcp.fd (toSizeT n) true 0 heap inbox (firsts f u ++ es)
  obtain ⟨used, hused, hfailures⟩ := stream_failures tcp.fd (toSizeT n) true 0 heap inbox (firsts f u ++ es)
  rw [Nat.cast_zero, ← readCalls_eq] at hfills
  rw [← readCalls_eq] at htaken hused hfailures
  have hlen : (inbox.take n).length = n := List.length_take_of_le hin
  have hused' : used = firsts f u := by
    rw [hfills.rest] at hused
    exact (List.append_cancel_right hused).symm
  have hnone : failures (readCalls stream tcp.fd heap (toSizeT n) true inbox (firsts f u ++ es)).calls = 0 := by
    rw [hfailures, hused', count_error_firsts hf]
  have hdel : delivered (readCalls stream tcp.fd heap (toSizeT n) true inbox (firsts f u ++ es)).calls = inbox.take n := by
    rw [hfills.kernel] at htaken
    exact List.append_cancel_right (htaken.symm.trans (List.take_append_drop n inbox).symm)
  rw [TCP.readS, if_pos hc, readBody_kernel]
  refine ⟨⟨?_, ?_, by omega, by omega⟩, hfills.kernel⟩
  · refine readBody_returned.mpr ⟨_, hfills.status, ?_⟩
    rw [retval, if_neg Bool.false_ne_true, hsize, hlen, toInt_of_lt (by omega) (by omega)]
  · refine blockOf_full heap ?_ ?_ ?_ hlen ?_
    · rw [readBody_calls]; exact hnone
    · rw [readBody_calls]; exact fun p c q hpq => (hbooks.place p c q hpq).1
    · rw [readBody_calls]; exact hdel
    · rw [readBody_buf]; exact hfills.buf

/-! ## One call -/

/-- The request does not bear on what is left, either. -/
theorem get_inbox (h : HTTP) (accept : List Byte → Int) (heap : Mem) (page : CStr) {n : Int} (hn : 0 ≤ n)
    (inbox : List Byte) (es : List Answer) :
    (h.get accept heap page n inbox es).inbox = (TCP.readS h.tcp heap (toSizeT n) false true inbox es).kernel := by
  obtain ⟨len, hlen⟩ := strlen_snprintf h.mem (show 0 < headerBound by decide) (getHeader page.text h.ip.text)
  have huntil : decide (n ≠ -1) = true := decide_eq_true (by omega)
  unfold HTTP.get
  simp [writeHeader, hlen, roomFor_of_nonneg hn, huntil, Int.not_lt.mpr hn]

theorem postRead_counted (tcp : Client) (heap : Mem) (n : Nat) (inbox : List Byte) (es : List Answer) :
    postRead tcp heap n inbox es =
      (postOutcome n (TCP.readS tcp heap (toSizeT n) false true inbox es),
        (TCP.readS tcp heap (toSizeT n) false true inbox es).kernel,
        (TCP.readS tcp heap (toSizeT n) false true inbox es).rest) := by
  have hroom : roomFor (n : Int) = n := roomFor_of_nonneg (by omega)
  have huntil : decide ((n : Int) ≠ -1) = true := decide_eq_true (by omega)
  unfold postRead
  rw [hroom, if_neg (by omega), huntil]

/-- A call takes its `n` bytes, whatever they are, and leaves the others. -/
theorem call_counted {tcp : Client} (hc : tcp.isConnected = true) (accept : List Byte → Int) (x : Ask) (hpos : 0 < x.n)
    (hn : x.n < 2 ^ 31) {inbox : List Byte} (hin : x.n ≤ inbox.length) (hf : Steady .tcp x.answers) :
    ∃ u, ∀ (h : HTTP) (es : List Answer), h.tcp = tcp →
      (h.call accept x inbox (firsts x.answers u ++ es)).outcome = x.method.parse x.n (inbox.take x.n) ∧
        (h.call accept x inbox (firsts x.answers u ++ es)).inbox = inbox.drop x.n := by
  obtain ⟨u, hu⟩ := readS_counted hc hpos hn x.heap hin hf
  refine ⟨u, fun h es htcp => ?_⟩
  obtain ⟨hdelivers, hleft⟩ := hu es
  subst htcp
  unfold HTTP.call
  cases hm : x.method with
  | get =>
    refine ⟨?_, ?_⟩
    · rw [get_outcome h accept x.heap x.page (Int.natCast_nonneg _)]
      exact getOutcome_delivered hdelivers
    · rw [get_inbox h accept x.heap x.page (Int.natCast_nonneg _)]
      exact hleft
  | post content =>
    obtain ⟨houtcome, hinbox⟩ := post_read h accept x.heap x.page content x.n inbox (firsts x.answers u ++ es)
    rw [postRead_counted] at houtcome hinbox
    refine ⟨?_, hinbox.trans hleft⟩
    rw [houtcome]
    exact postOutcome_delivered hdelivers

/-! ## A session -/

/-- The answers that `recv` gives keep the call supplied. -/
structure Fair (x : Ask) : Prop where
  pos : 0 < x.n
  small : x.n < 2 ^ 31
  steady : Steady .tcp x.answers

theorem counted_pieces (accept : List Byte → Int) {tcp : Client} (hc : tcp.isConnected = true) {left : List Byte}
    {xs : List Ask} (hfair : ∀ x ∈ xs, Fair x) (hsupplied : Supplied left xs) :
    ∃ u₀, ∀ u ≥ u₀, ∀ h : HTTP, h.tcp = tcp → counted accept u h left xs = pieces left xs := by
  induction xs generalizing left with
  | nil => exact ⟨0, fun _ _ _ _ => rfl⟩
  | cons x xs ih =>
    obtain ⟨hx, hxs⟩ := List.forall_mem_cons.mp hfair
    obtain ⟨hin, hrest⟩ := hsupplied
    obtain ⟨u₁, hu₁⟩ := call_counted hc accept x hx.pos hx.small hin hx.steady
    obtain ⟨u₂, hu₂⟩ := ih hxs hrest
    refine ⟨max u₁ u₂, fun u hu h htcp => ?_⟩
    have hfirsts : firsts x.answers u = firsts x.answers u₁ ++ firsts (fun i => x.answers (i + u₁)) (u - u₁) := by
      rw [← firsts_add, Nat.add_sub_cancel' (by omega)]
    obtain ⟨houtcome, hleft⟩ := hu₁ h (firsts (fun i => x.answers (i + u₁)) (u - u₁)) htcp
    rw [← hfirsts] at houtcome hleft
    simp only [counted, pieces, houtcome, hleft]
    exact congrArg (_ :: ·) (hu₂ u (by omega) { h with mem := _ } htcp)

/-- Nothing is left over between the calls if and only if each wants what its response has. -/
theorem pieces_in_step_iff {xs : List Ask} (hsupplied : Supplied [] xs) :
    (∀ p ∈ pieces [] xs, p.2 = []) ↔ ∀ x ∈ xs, x.n = x.response.length := by
  induction xs with
  | nil => exact ⟨fun _ _ h => (List.not_mem_nil h).elim, fun _ _ h => (List.not_mem_nil h).elim⟩
  | cons x xs ih =>
    obtain ⟨hin, hrest⟩ := hsupplied
    rw [List.nil_append] at hin hrest
    simp only [pieces, List.nil_append, List.forall_mem_cons, List.drop_eq_nil_iff]
    have hfirst : x.response.length ≤ x.n ↔ x.n = x.response.length := by omega
    rw [hfirst]
    refine and_congr_right ?_
    intro heq
    have hnil : x.response.drop x.n = [] := List.drop_of_length_le (by omega)
    rw [hnil] at hrest ⊢
    exact ih hrest

theorem pieces_in_step {xs : List Ask} (hall : ∀ x ∈ xs, x.n = x.response.length) :
    pieces [] xs = xs.map fun x => (x.method.parse x.n x.response, []) := by
  induction xs with
  | nil => rfl
  | cons x xs ih =>
    obtain ⟨hx, hxs⟩ := List.forall_mem_cons.mp hall
    have htake : x.response.take x.n = x.response := List.take_of_length_le (by omega)
    have hdrop : x.response.drop x.n = [] := List.drop_of_length_le (by omega)
    simp only [pieces, List.nil_append, htake, hdrop, ih hxs, List.map_cons]

/-- The method takes a body from the response. -/
def Method.Takes (response : List Byte) : Method → Prop
  | .get => True
  | .post _ => okLine <+: response

theorem parse_exact_iff {n : Nat} {bytes : List Byte} (hpos : 0 < bytes.length) (hle : bytes.length ≤ n) {m : Method}
    (ht : m.Takes bytes) :
    ExactBody bytes (m.parse n bytes) ↔ (blankLine <:+: bytes → 0 ∉ bytes ∧ bytes.length < n) := by
  have hd := delivers_oneCall hpos hle
  have hparse : m.parse n bytes = getParse (received n bytes) := by
    cases m with
    | get => rfl
    | post content =>
      show postParse (terminated n (bytes.take (n - 1))) (received n bytes) = getParse (received n bytes)
      rw [← postOutcome_delivered hd, ← getOutcome_delivered hd]
      exact post_is_get hd ht
  rw [exactBody_iff, hparse]
  exact getParse_received_iff hpos

/-- Calls that want no more than the server has sent, however TCP cuts it: each takes the next
    `n` bytes, and makes its outcome of them without the last. They take the responses they
    asked for if and only if every `n` is the length of the response; and then a body that
    is there is not returned whole. -/
theorem counted_calls (accept : List Byte → Int) {h : HTTP} (hc : h.tcp.isConnected = true) {xs : List Ask}
    (hfair : ∀ x ∈ xs, Fair x) (hsupplied : Supplied [] xs) :
    ∃ u₀, ∀ u ≥ u₀, counted accept u h [] xs = pieces [] xs ∧
      ((∀ p ∈ counted accept u h [] xs, p.2 = []) ↔ ∀ x ∈ xs, x.n = x.response.length) ∧
      ((∀ x ∈ xs, x.n = x.response.length) →
        counted accept u h [] xs = xs.map (fun x => (x.method.parse x.n x.response, [])) ∧
          ∀ x ∈ xs, x.method.Takes x.response → blankLine <:+: x.response →
            ¬ ExactBody x.response (x.method.parse x.n x.response)) := by
  obtain ⟨u₀, hu₀⟩ := counted_pieces accept hc hfair hsupplied
  refine ⟨u₀, fun u hu => ?_⟩
  have heq := hu₀ u hu h rfl
  refine ⟨heq, ?_, ?_⟩
  · rw [heq]
    exact pieces_in_step_iff hsupplied
  · intro hall
    refine ⟨heq.trans (pieces_in_step hall), ?_⟩
    intro x hx ht hblank hexact
    have hpos := (hfair x hx).pos
    have hlen := hall x hx
    have hshort := ((parse_exact_iff (by omega) (by omega) ht).mp hexact hblank).2
    omega

/-- Twice the short page, asked for with its length, one byte at a time. -/
def twoAsks : List Ask :=
  [⟨.get, page, 23, okPage, fun _ => 0, fun _ => .upto 1⟩, ⟨.post none, page, 23, okPage, fun _ => 0, fun _ => .upto 1⟩]

theorem two_counted_calls :
    ∃ u₀, ∀ u ≥ u₀, counted (fun bs => bs.length) u localhost [] twoAsks =
      [(.returned (ascii "bod"), []), (.returned (ascii "bod"), [])] := by
  have hfair : ∀ x ∈ twoAsks, Fair x := by
    intro x hx
    simp only [twoAsks, List.mem_cons, List.not_mem_nil, or_false] at hx
    rcases hx with rfl | rfl
    · exact ⟨by decide, by decide, fun _ => ⟨1, by decide, rfl⟩⟩
    · exact ⟨by decide, by decide, fun _ => ⟨1, by decide, rfl⟩⟩
  have hsupplied : Supplied [] twoAsks := ⟨by decide +kernel, by decide +kernel, trivial⟩
  obtain ⟨u₀, hu₀⟩ := counted_calls (fun bs => bs.length) (h := localhost) rfl hfair hsupplied
  refine ⟨u₀, fun u hu => ?_⟩
  rw [(hu₀ u hu).1]
  decide +kernel

end ComClient.Http
