/-
  ComClient.Http.Paired — which response a call of `post` returns.

  `post` with the default `n` reads once, up to 2048 bytes, whatever the server has sent so
  far; what is left stays in the connection and is the next call's. A server answers every
  request with one `Response`, and TCP hands the bytes over in pieces of its own choice
  (`Exchange.arrived`).

  A piece that ends inside the response never gives the body: without the end of the headers
  the call throws, and with it returns a shorter text (`post_part`). So the calls return the
  bodies of their responses if and only if every read got the whole response (`paired_iff`).
-/

import ComClient.Http.Code

namespace ComClient.Http

open ComClient.Transport ComClient.Libc

/-! ## The buffer -/

/-- A new block of `n` bytes in which `bytes` were stored. -/
def filled (n : Nat) (bytes : List Byte) : Block := bytes.map some ++ List.replicate (n - bytes.length) none

/-- It holds the text and its terminator. -/
def terminated (n : Nat) (text : List Byte) : Block :=
  text.map some ++ some 0 :: List.replicate (n - text.length - 1) none

theorem terminate_filled {n : Nat} {bytes : List Byte} (hpos : 0 < bytes.length) (hlt : bytes.length < n) :
    terminate n bytes.length (filled n bytes) = some (terminated n bytes) := by
  have hrest : List.replicate (n - bytes.length) (none : Option Byte) =
      none :: List.replicate (n - bytes.length - 1) none := by
    rw [← List.replicate_succ]
    congr 1
    omega
  unfold terminate
  rw [if_pos (by omega), Int.toNat_natCast, filled, terminated, hrest, List.set_append_right _ _ (by simp)]
  simp

/-- The string ends at the first zero of the text, or with it. -/
theorem cstring_text (n : Nat) (text : List Byte) : cstring (terminated n text) = some (text.takeWhile (· ≠ 0)) := by
  unfold terminated
  generalize List.replicate (n - text.length - 1) (none : Option Byte) = rest
  induction text with
  | nil => simp [cstring]
  | cons b text ih =>
    by_cases hb : b = 0
    · simp [cstring, hb]
    · rw [List.map_cons, List.cons_append, cstring, if_neg hb, ih, List.takeWhile_cons, if_pos (decide_eq_true hb)]
      rfl

theorem takeWhile_nonzero {text : List Byte} (h0 : 0 ∉ text) : text.takeWhile (· ≠ 0) = text :=
  List.takeWhile_eq_self_iff.mpr fun _ hb => decide_eq_true fun hb0 => h0 (hb0 ▸ hb)

theorem cstring_terminated (n : Nat) {text : List Byte} (h0 : 0 ∉ text) : cstring (terminated n text) = some text := by
  rw [cstring_text, takeWhile_nonzero h0]

/-- A read of fewer bytes than there is room for, none of them zero. -/
theorem postResponse_filled {n : Nat} {bytes : List Byte} (h0 : 0 ∉ bytes) (hpos : 0 < bytes.length)
    (hlt : bytes.length < n) : postResponse n bytes.length (filled n bytes) = postParse (terminated n bytes) bytes := by
  simp only [postResponse, terminate_filled hpos hlt, cstring_terminated n h0]

/-- A body that is returned stands behind the first blank line. -/
theorem postParse_returned {buffer : Block} {s body : List Byte} (h : postParse buffer s = .returned body) :
    ∃ found, strstr blankLine s = some found ∧ body = found.drop 4 := by
  unfold postParse at h
  split at h
  · cases h
  · dsimp only at h
    split at h
    · cases h
    · split at h
      · cases h
      · split at h
        · cases h
        · rename_i found hfound
          cases h
          exact ⟨found, hfound, rfl⟩

/-- The block after one call that stored `bytes`. -/
theorem blockOf_one {n len : Nat} {fd : Int} {status : Status} {heap : Mem} {bytes inbox : List Byte} {es : List Answer}
    (h : bytes.length ≤ n) :
    blockOf n ⟨[⟨fd, 0, len, some (.data bytes)⟩], status, store heap 0 bytes, inbox, es⟩ = some (filled n bytes) := by
  have hbytes : (⟨fd, 0, len, some (.data bytes)⟩ : Call).bytes = bytes := rfl
  unfold blockOf
  rw [if_pos (by simp [hbytes, h])]
  congr 1
  apply List.ext_getElem
  · simp [filled, h]
  · intro i h1 h2
    by_cases hi : i < bytes.length
    · simp [filled, hi, hbytes, store_in heap 0 bytes (i := i) (by omega) (by omega)]
    · have hpast : (filled n bytes)[i] = none := by
        simp only [filled]
        rw [List.getElem_append_right (by simpa using hi), List.getElem_replicate]
      rw [hpast]
      simp [hi, hbytes]

/-- One `recv` gets the front of what has arrived. -/
theorem readCalls_once {size : SizeT} (h : size.val < 2 ^ 63) (fd : Int) (heap : Mem) (inbox : List Byte) (k : Nat)
    (es : List Answer) :
    readCalls stream fd heap size false inbox (.upto k :: es) =
      ⟨[⟨fd, 0, size.val, some (.data (inbox.take (min k size.val)))⟩],
        .returned (inbox.take (min k size.val)).length, store heap 0 (inbox.take (min k size.val)),
        inbox.drop (min k size.val), es⟩ := by
  have hlen : (inbox.take (min k size.val)).length ≤ size.val := by
    rw [List.length_take]
    omega
  have hfits : fitsSsize ((inbox.take (min k size.val)).length : Nat) = true := by
    rw [fitsSsize_iff]
    omega
  simp only [readCalls, stream, Recv.ret, Recv.bytes, hfits, if_true, Bool.false_eq_true, and_false, if_false, Run.after]

theorem readS_once {tcp : Client} (h : tcp.isConnected = true) (heap : Mem) (inbox : List Byte) (k : Nat)
    (es : List Answer) :
    TCP.readS tcp heap (toSizeT 2048) false false inbox (.upto k :: es) =
      ⟨[⟨tcp.fd, 0, 2048, some (.data (inbox.take (min k 2048)))⟩], .returned (inbox.take (min k 2048)).length,
        store heap 0 (inbox.take (min k 2048)), inbox.drop (min k 2048), es⟩ := by
  have hroom : (toSizeT 2048).val = 2048 := by decide
  have hcalls := @readCalls_once (toSizeT 2048) (by rw [hroom]; omega) tcp.fd heap inbox k es
  have hlen : (inbox.take (min k 2048)).length ≤ 2048 := by
    rw [List.length_take]
    omega
  have hret : toInt ((inbox.take (min k 2048)).length : Nat) = (inbox.take (min k 2048)).length :=
    toInt_of_lt (by omega) (by omega)
  rw [hroom] at hcalls
  rw [TCP.readS, if_pos h, readBody]
  simp only [hcalls, retval, Bool.false_eq_true, if_false, hret]

/-- `post` with the default `n`. -/
theorem postRead_default {tcp : Client} (h : tcp.isConnected = true) (heap : Mem) (inbox : List Byte) (k : Nat)
    (es : List Answer) :
    postRead tcp heap (-1) inbox (.upto k :: es) =
      (postResponse 2048 (inbox.take (min k 2048)).length (filled 2048 (inbox.take (min k 2048))),
        inbox.drop (min k 2048), es) := by
  have hblock : (inbox.take (min k 2048)).length ≤ 2048 := by
    rw [List.length_take]
    omega
  have hroom : roomFor (-1) = 2048 := rfl
  have hread := readS_once h heap inbox k es
  unfold postRead
  simp only [hroom]
  rw [if_neg (by omega), show decide ((-1 : Int) ≠ -1) = false from rfl, hread]
  simp only [postOutcome, show Int.toNat 2048 = 2048 from rfl, blockOf_one hblock]

/-! ## Responses -/

/-- The first line up to the status. -/
def ok200 : List Byte := ascii "HTTP/1.1 200"

structure Response where
  /-- From the status to the end of the headers. -/
  head : List Byte
  body : List Byte
  status : ∀ b, head.head? = some b → isdigit b = false
  /-- The headers end where the first blank line is. -/
  blank : strstr blankLine (ok200 ++ head ++ blankLine) = some blankLine
  nonzero : 0 ∉ head ++ body
  short : (ok200 ++ head ++ blankLine ++ body).length < 2048

def Response.bytes (r : Response) : List Byte := ok200 ++ head r ++ blankLine ++ r.body

variable (r : Response)

theorem Response.bytes_nonzero : 0 ∉ r.bytes := by
  have h := r.nonzero
  have hfirst : (0 : Byte) ∉ ok200 := by decide
  have hblank : (0 : Byte) ∉ blankLine := by decide
  simp only [List.mem_append, not_or] at h
  simp only [Response.bytes, List.mem_append, not_or]
  exact ⟨⟨⟨hfirst, h.1⟩, hblank⟩, h.2⟩

theorem Response.length_pos : 0 < r.bytes.length := by
  have hfirst : ok200.length = 12 := by decide
  simp only [Response.bytes, List.length_append, hfirst]
  omega

/-- The headers end before the body. -/
theorem Response.find_blank : strstr blankLine r.bytes = some (blankLine ++ r.body) := strstr_append r.blank r.body

theorem Response.find_version : strstr httpVersion r.bytes = some r.bytes := by
  have hfirst : httpVersion <+: ok200 := by decide
  refine strstr_here (hfirst.trans ?_)
  simp [Response.bytes, List.append_assoc]

/-- The code that the status line has. -/
theorem Response.code : strtol (r.bytes.drop 9) = 200 := by
  have hfirst : ok200.drop 9 = ascii "200" := by decide
  have hlen : 9 ≤ ok200.length := by decide
  have hrest : ∀ b, (r.head ++ (blankLine ++ r.body)).head? = some b → isdigit b = false := by
    intro b hb
    rcases hhead : r.head with _ | ⟨c, rest⟩
    · rw [hhead] at hb
      cases hb
      decide
    · refine r.status b ?_
      rw [hhead] at hb ⊢
      exact hb
  have hcode : strtol (ascii "200" ++ (r.head ++ (blankLine ++ r.body))) = strtol (ascii "200") :=
    strtol_append (by decide) (by decide) hrest
  rw [Response.bytes, List.append_assoc, List.append_assoc, List.drop_append_of_le_length hlen, hfirst, hcode]
  decide

/-- A response that is read whole. -/
theorem post_whole : postResponse 2048 r.bytes.length (filled 2048 r.bytes) = .returned r.body := by
  have hcode : toInt (strtol (r.bytes.drop 9)) = 200 := by
    rw [r.code]
    decide
  have hthree : three (terminated 2048 r.bytes) (r.bytes.length - r.bytes.length + 9) =
      some (((terminated 2048 r.bytes).drop 9).take 3) := by
    have hshort : r.bytes.length < 2048 := r.short
    rw [Nat.sub_self, three, if_pos]
    simp only [terminated, List.length_append, List.length_map, List.length_cons, List.length_replicate]
    omega
  have hbody : (blankLine ++ r.body).drop 4 = r.body := List.drop_left' (by decide)
  have hparse := postResponse_filled r.bytes_nonzero r.length_pos r.short
  rw [Nat.cast_ofNat] at hparse
  rw [hparse]
  simp only [postParse, r.find_version, r.find_blank, hthree, hcode, hbody]
  rfl

/-- A response of which the end is missing. -/
theorem post_part {part rest : List Byte} (h : r.bytes = part ++ rest) (hpos : 0 < part.length) (hrest : rest ≠ []) :
    postResponse 2048 part.length (filled 2048 part) ≠ .returned r.body := by
  have hnonzero : 0 ∉ part := by
    intro h0
    exact r.bytes_nonzero (h ▸ List.mem_append_left _ h0)
  have hshort : part.length < 2048 := by
    have hlen : r.bytes.length < 2048 := r.short
    rw [h, List.length_append] at hlen
    omega
  have hparse := postResponse_filled hnonzero hpos hshort
  rw [Nat.cast_ofNat] at hparse
  rw [hparse]
  intro hreturned
  obtain ⟨found, hfound, hbody⟩ := postParse_returned hreturned
  -- The blank line is the response's own, so what follows it is shorter by what is missing.
  have hwhole := r.find_blank
  rw [h, strstr_append hfound rest] at hwhole
  have hlen : found.length + rest.length = 4 + r.body.length := by
    have hcongr := congrArg List.length (Option.some.inj hwhole)
    rw [List.length_append, List.length_append] at hcongr
    exact hcongr
  have hfour : blankLine.length ≤ found.length := (strstr_found hfound).2.length_le
  have hrestPos : 0 < rest.length := List.length_pos_iff.mpr hrest
  have hdrop := congrArg List.length hbody
  rw [List.length_drop] at hdrop
  have hfour : 4 ≤ found.length := hfour
  omega

/-! ## Sessions -/

/-- A call of `post`, and what it meets. -/
structure Exchange where
  page : CStr
  content : Option CStr
  response : Response
  /-- How much of what is sent and not read yet has arrived when `recv` returns. -/
  arrived : Nat
  some : 0 < arrived
  heap : Mem

/-- The calls of one client on one connection, in order; `inbox` is what was sent for earlier
    calls and not read. -/
def session (accept : List Byte → Int) : HTTP → List Byte → List Exchange → List Outcome
  | _, _, [] => []
  | h, inbox, x :: xs =>
    let r := h.post accept x.heap x.page x.content (-1) (inbox ++ x.response.bytes) [.upto x.arrived]
    r.outcome :: session accept { h with mem := r.mem } r.inbox xs

/-- The request does not bear on what is read. -/
theorem post_read (h : HTTP) (accept : List Byte → Int) (heap : Mem) (page : CStr) (content : Option CStr) (n : Int)
    (inbox : List Byte) (es : List Answer) :
    (h.post accept heap page content n inbox es).outcome = (postRead h.tcp heap n inbox es).1 ∧
      (h.post accept heap page content n inbox es).inbox = (postRead h.tcp heap n inbox es).2.1 := by
  obtain ⟨len, hlen⟩ := strlen_snprintf (countContent content h.mem) (show 0 < headerBound by decide)
    (header (decide (0 < contentLength (countContent content h.mem))) page.text h.ip.text
      (contentLength (countContent content h.mem)))
  unfold HTTP.post
  simp [writeHeader, formatHeader, hlen]

/-- A call when nothing is left over from earlier ones. -/
theorem post_default {h : HTTP} (htcp : h.tcp.isConnected = true) (accept : List Byte → Int) (x : Exchange) :
    let r := h.post accept x.heap x.page x.content (-1) x.response.bytes [.upto x.arrived]
    (r.outcome = .returned x.response.body ↔ x.response.bytes.length ≤ x.arrived) ∧
      (x.response.bytes.length ≤ x.arrived → r.inbox = []) := by
  have hshort : x.response.bytes.length < 2048 := x.response.short
  have hpos := x.some
  obtain ⟨houtcome, hinbox⟩ := post_read h accept x.heap x.page x.content (-1) x.response.bytes [.upto x.arrived]
  dsimp only
  rw [houtcome, hinbox]
  rw [postRead_default htcp]
  by_cases hwhole : x.response.bytes.length ≤ x.arrived
  · have htake : x.response.bytes.take (min x.arrived 2048) = x.response.bytes := List.take_of_length_le (by omega)
    have hdrop : x.response.bytes.drop (min x.arrived 2048) = [] := List.drop_of_length_le (by omega)
    simp only [htake, hdrop, post_whole, hwhole, imp_self, and_self]
  · have hpart := post_part x.response (List.take_append_drop (min x.arrived 2048) x.response.bytes).symm
      (by rw [List.length_take]; omega) (by rw [Ne, List.drop_eq_nil_iff]; omega)
    exact ⟨iff_of_false hpart hwhole, fun h => absurd h hwhole⟩

/-- The calls return the bodies of their responses if and only if every read gets the whole
    response. -/
theorem paired_iff (accept : List Byte → Int) {h : HTTP} (htcp : h.tcp.isConnected = true) (xs : List Exchange) :
    session accept h [] xs = xs.map (fun x => Outcome.returned x.response.body) ↔
      ∀ x ∈ xs, x.response.bytes.length ≤ x.arrived := by
  induction xs generalizing h with
  | nil => simp [session]
  | cons x xs ih =>
    obtain ⟨hbody, hleft⟩ := post_default htcp accept x
    rw [session, List.nil_append, List.map_cons, List.cons.injEq, List.forall_mem_cons, hbody]
    refine and_congr_right ?_
    intro hwhole
    rw [hleft hwhole]
    exact ih htcp

def responseOne : Response where
  head := ascii " OK\r\nContent-Length: 3"
  body := ascii "one"
  status b hb := by cases hb; rfl
  blank := by decide +kernel
  nonzero := by decide
  short := by decide

def responseTwo : Response where
  head := ascii " OK\r\nContent-Length: 3"
  body := ascii "two"
  status b hb := by cases hb; rfl
  blank := by decide +kernel
  nonzero := by decide
  short := by decide

def page : CStr := CStr.of (ascii "/") (by decide)

/-- Two posts of which the first gets `k` bytes. -/
def twoPosts (k : Nat) (h : 0 < k) : List Exchange :=
  [⟨page, none, responseOne, k, h, fun _ => 0⟩, ⟨page, none, responseTwo, 2048, by decide, fun _ => 0⟩]

theorem whole_responses_are_paired :
    session (fun bs => bs.length) localhost [] (twoPosts 2048 (by decide)) =
      (twoPosts 2048 (by decide)).map fun x => Outcome.returned x.response.body := by
  refine (paired_iff _ rfl _).mpr ?_
  decide

/-- The first response comes in two pieces; its headers end the first. -/
theorem a_split_response_loses_its_body :
    session (fun bs => bs.length) localhost [] (twoPosts 38 (by decide)) = [.returned [], .returned (ascii "two")] ∧
      session (fun bs => bs.length) localhost [] (twoPosts 38 (by decide)) ≠
        (twoPosts 38 (by decide)).map fun x => Outcome.returned x.response.body := by
  have hsession : session (fun bs => bs.length) localhost [] (twoPosts 38 (by decide)) =
      [.returned [], .returned (ascii "two")] := by decide +kernel
  refine ⟨hsession, ?_⟩
  rw [hsession]
  decide

end ComClient.Http
