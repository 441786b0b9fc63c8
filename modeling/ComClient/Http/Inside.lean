/-
  ComClient.Http.Inside — whether the handling of a response stays inside what the call
  has stored.

  After a `readS` that returned a count, the buffer holds the bytes and a terminator, the
  last byte giving way to it if the buffer is full (`terminate_received`); what `strstr`,
  `strtol` and the strings look at is the text before the first zero (`received`), and
  `code_str` takes three bytes of the buffer wherever they stand.

  - `inside_iff`: every byte that is looked at was stored by the call, inside the buffer,
    if and only if there is a buffer (`get` allocates none for the default `n`), something
    was received, and, in `post`, three stored bytes follow the first `"HTTP/1.1 "`.
-/

import ComClient.Http.Get
import ComClient.Http.Paired

namespace ComClient.Http

open ComClient.Transport ComClient.Libc

/-! ## The string in the buffer -/

/-- What a buffer of `n` bytes holds as a string, after `bytes` were received. -/
def received (n : Nat) (bytes : List Byte) : List Byte := (bytes.take (n - 1)).takeWhile (· ≠ 0)

/-- The terminator stands behind what was received, or in the place of its last byte. -/
theorem terminate_received {n : Nat} {bytes : List Byte} (hpos : 0 < bytes.length) (hle : bytes.length ≤ n) :
    terminate n bytes.length (filled n bytes) = some (terminated n (bytes.take (n - 1))) := by
  rcases Nat.lt_or_eq_of_le hle with hlt | heq
  · rw [terminate_filled hpos hlt, List.take_of_length_le (by omega)]
  · subst heq
    have hlast : ((bytes.length : Int) - 1).toNat = bytes.length - 1 := by omega
    have hdrop : List.drop (bytes.length - 1 + 1) (bytes.map some) = [] :=
      List.drop_of_length_le (by rw [List.length_map]; omega)
    unfold terminate
    rw [if_neg (by omega), if_pos (Int.le_refl _), if_pos (by omega), hlast, filled, terminated, Nat.sub_self,
      List.replicate_zero, List.append_nil, List.set_eq_take_append_cons_drop, if_pos (by simp; omega), hdrop,
      List.map_take, List.length_take, Nat.min_eq_left (Nat.sub_le _ _)]
    rw [show bytes.length - (bytes.length - 1) - 1 = 0 by omega, List.replicate_zero]

theorem length_terminated {n : Nat} {text : List Byte} (h : text.length < n) : (terminated n text).length = n := by
  unfold terminated
  simp only [List.length_append, List.length_map, List.length_cons, List.length_replicate]
  omega

/-- Three bytes of the buffer are the call's own where the terminator is not before the last of
    them. -/
theorem three_stored_iff {n : Nat} {text : List Byte} (h : text.length < n) (i : Nat) :
    (∃ code, three (terminated n text) i = some code ∧ none ∉ code) ↔ i + 3 ≤ text.length + 1 := by
  have hlen := length_terminated h
  have hsplit : terminated n text = (text.map some ++ [some 0]) ++ List.replicate (n - text.length - 1) none := by
    simp [terminated]
  constructor
  · rintro ⟨code, hcode, hstored⟩
    obtain ⟨hroom, hcode⟩ := Option.ite_none_right_eq_some.mp hcode
    cases hcode
    by_contra hfar
    refine hstored ?_
    have hlast : (((terminated n text).drop i).take 3)[2]? = some none := by
      rw [List.getElem?_take_of_lt (by omega), List.getElem?_drop, hsplit,
        List.getElem?_append_right (by simp; omega), List.getElem?_replicate, if_pos]
      simp only [List.length_append, List.length_map, List.length_singleton]
      omega
    exact List.mem_of_getElem? hlast
  · intro hnear
    refine ⟨((terminated n text).drop i).take 3, if_pos (by omega), ?_⟩
    intro hnone
    rw [hsplit, List.drop_append_of_le_length (by simp; omega), List.take_append_of_le_length (by simp; omega)] at hnone
    have hmem := List.mem_of_mem_drop (List.mem_of_mem_take hnone)
    simp at hmem

/-! ## Staying inside -/

/-- A value that `readS` may return for `size` bytes, and what it has stored then. -/
inductive ReadOutcome (size : Int) : Int → List Byte → Prop
  | failed : ReadOutcome size (-1) []
  | count (bytes : List Byte) : bytes.length ≤ size → ReadOutcome size bytes.length bytes

/-- `get` has a buffer of at least the bytes it asks for, writes the terminator into it, and the
    string that it scans and copies ends in what was stored. -/
structure GetInside (n ret : Int) (bytes : List Byte) : Prop where
  allocated : 0 ≤ n
  room : roomFor n ≤ n
  scanned : ∃ buffer s, terminate (roomFor n) ret (filled n.toNat bytes) = some buffer ∧ cstring buffer = some s

/-- The same of `post`, whose buffer has the bytes it asks for, and of the three bytes of
    `code_str`. -/
structure PostInside (n ret : Int) (bytes : List Byte) : Prop where
  allocated : 0 ≤ roomFor n
  scanned : ∃ buffer s, terminate (roomFor n) ret (filled (roomFor n).toNat bytes) = some buffer ∧
    cstring buffer = some s ∧
    ∀ c, strstr httpVersion s = some c →
      ∃ code, three buffer (s.length - c.length + 9) = some code ∧ none ∉ code

/-- Of the bytes behind the first `"HTTP/1.1 "` of the text, three were stored, the terminator
    counted. -/
def StatusStored (n : Nat) (bytes : List Byte) : Prop :=
  ∀ c, strstr httpVersion (received n bytes) = some c →
    (received n bytes).length - c.length + 12 ≤ min bytes.length (n - 1) + 1

theorem readOutcome_pos {size ret : Int} {bytes : List Byte} (h : ReadOutcome size ret bytes) (hret : 1 ≤ ret) :
    ret = bytes.length ∧ 0 < bytes.length ∧ bytes.length ≤ size := by
  cases h with
  | failed => omega
  | count bytes hle => exact ⟨rfl, by omega, hle⟩

/-- Nothing received is nothing terminated, and nothing to scan. -/
theorem nothing_scanned {size ret : Int} {bytes : List Byte} (h : ReadOutcome size ret bytes) (hret : ¬ 1 ≤ ret)
    {buffer : Block} {s : List Byte} (hbuffer : terminate size ret (filled size.toNat bytes) = some buffer) :
    cstring buffer ≠ some s := by
  have hempty : bytes = [] ∧ ret ≤ 0 := by
    cases h with
    | failed => exact ⟨rfl, by decide⟩
    | count bytes hle => exact ⟨List.eq_nil_of_length_eq_zero (by omega), by omega⟩
  obtain ⟨rfl, hret⟩ := hempty
  unfold terminate at hbuffer
  rw [if_neg (by omega)] at hbuffer
  split at hbuffer
  · split at hbuffer
    · omega
    · cases hbuffer
  · cases hbuffer
    rcases hsize : size.toNat with _ | k
    · simp [filled, cstring]
    · simp [filled, cstring, List.replicate_succ]

theorem getInside_iff {n ret : Int} {bytes : List Byte} (h : ReadOutcome (roomFor n) ret bytes) :
    GetInside n ret bytes ↔ 1 ≤ n ∧ 1 ≤ ret := by
  constructor
  · intro hin
    obtain ⟨buffer, s, hbuffer, hs⟩ := hin.scanned
    have hroom := roomFor_of_nonneg hin.allocated
    rw [hroom] at hbuffer h
    have hret : 1 ≤ ret := by
      by_contra hret
      exact nothing_scanned h hret hbuffer hs
    obtain ⟨-, hpos, hle⟩ := readOutcome_pos h hret
    exact ⟨by omega, hret⟩
  · rintro ⟨hn, hret⟩
    have hroom : roomFor n = n := roomFor_of_nonneg (by omega)
    obtain ⟨rfl, hpos, hle⟩ := readOutcome_pos h hret
    rw [hroom] at hle
    refine ⟨by omega, Int.le_of_eq hroom, ?_⟩
    obtain ⟨k, rfl⟩ := Int.eq_ofNat_of_zero_le (show 0 ≤ n by omega)
    rw [hroom, Int.toNat_natCast]
    exact ⟨_, _, terminate_received hpos (by omega), cstring_text k _⟩

theorem postInside_iff {n ret : Int} {bytes : List Byte} (hn : n = -1 ∨ 0 ≤ n)
    (h : ReadOutcome (roomFor n) ret bytes) :
    PostInside n ret bytes ↔ n ≠ 0 ∧ 1 ≤ ret ∧ StatusStored (roomFor n).toNat bytes := by
  have hnonneg : 0 ≤ roomFor n := by
    unfold roomFor
    split <;> omega
  have hzero : roomFor n = 0 ↔ n = 0 := by
    unfold roomFor
    split <;> omega
  obtain ⟨k, hk⟩ := Int.eq_ofNat_of_zero_le hnonneg
  rw [hk] at h hzero
  by_cases hret : 1 ≤ ret
  · obtain ⟨rfl, hpos, hle⟩ := readOutcome_pos h hret
    have hlt : (bytes.take (k - 1)).length < k := by
      rw [List.length_take]
      omega
    have hstored : ∀ c : List Byte, (∃ code, three (terminated k (bytes.take (k - 1)))
        ((received k bytes).length - c.length + 9) = some code ∧ none ∉ code) ↔
        (received k bytes).length - c.length + 12 ≤ min bytes.length (k - 1) + 1 := by
      intro c
      rw [three_stored_iff hlt, List.length_take]
      omega
    have hterm := terminate_received hpos (show bytes.length ≤ k by omega)
    constructor
    · intro hin
      obtain ⟨buffer, s, hbuffer, hs, hcode⟩ := hin.scanned
      rw [hk, Int.toNat_natCast, hterm] at hbuffer
      cases hbuffer
      rw [cstring_text] at hs
      cases hs
      refine ⟨fun h0 => ?_, hret, ?_⟩
      · have hk0 := hzero.mpr h0
        omega
      · rw [hk, Int.toNat_natCast]
        intro c hc
        exact (hstored c).mp (hcode c hc)
    · rintro ⟨-, -, hstatus⟩
      refine ⟨hnonneg, terminated k (bytes.take (k - 1)), received k bytes, ?_, cstring_text k _, ?_⟩
      · rw [hk, Int.toNat_natCast, hterm]
      · rw [hk, Int.toNat_natCast] at hstatus
        intro c hc
        exact (hstored c).mpr (hstatus c hc)
  · refine iff_of_false ?_ fun h => hret h.2.1
    intro hin
    obtain ⟨buffer, s, hbuffer, hs, -⟩ := hin.scanned
    rw [hk] at hbuffer
    exact nothing_scanned h hret hbuffer hs

/-- `get` stays inside what it has stored if and only if it was given a positive `n` and
    received something; `post`, if and only if `n` is not 0, something was received, and the
    status was. -/
theorem inside_iff {n ret : Int} {bytes : List Byte} (hn : n = -1 ∨ 0 ≤ n)
    (h : ReadOutcome (roomFor n) ret bytes) :
    (GetInside n ret bytes ↔ 1 ≤ n ∧ 1 ≤ ret) ∧
      (PostInside n ret bytes ↔ n ≠ 0 ∧ 1 ≤ ret ∧ StatusStored (roomFor n).toNat bytes) :=
  ⟨getInside_iff h, postInside_iff hn h⟩

theorem inside_iff_for_a_status_line :
    (GetInside 64 15 (ascii "HTTP/1.1 200 OK") ↔ (1 : Int) ≤ 64 ∧ (1 : Int) ≤ 15) ∧
      (PostInside 64 15 (ascii "HTTP/1.1 200 OK") ↔
        (64 : Int) ≠ 0 ∧ (1 : Int) ≤ 15 ∧ StatusStored (roomFor 64).toNat (ascii "HTTP/1.1 200 OK")) :=
  inside_iff (Or.inr (by decide)) (.count (ascii "HTTP/1.1 200 OK") (by decide))

/-- `get` with the default `n` has no buffer and sends nothing; ten bytes that fill the buffer
    and begin with `"HTTP/1.1 "` have `post` take three bytes of which two are not there. -/
theorem responses_are_handled_outside :
    (localhost.get (fun bs => bs.length) (fun _ => 0) page (-1) (ascii "HTTP/1.1 200 OK") []).outcome =
        .threw .badAlloc ∧
      ¬ GetInside (-1) 15 (ascii "HTTP/1.1 200 OK") ∧
      postResponse 10 10 (filled 10 (ascii "HTTP/1.1 x")) = .undefined ∧ ¬ PostInside 10 10 (ascii "HTTP/1.1 x") := by
  refine ⟨rfl, ?_, by decide +kernel, ?_⟩
  · intro h
    exact absurd h.allocated (by decide)
  · intro h
    have hiff := postInside_iff (n := 10) (Or.inr (by decide)) (.count (ascii "HTTP/1.1 x") (by decide))
    obtain ⟨-, -, hstored⟩ := hiff.mp h
    exact absurd (hstored (ascii "HTTP/1.1 ") (by decide +kernel)) (by decide +kernel)

/-! ## What follows for a call -/

section

variable {n ret : Int} {bytes : List Byte} {r : Run (List Byte) Answer}

/-- A call that stays inside has a defined outcome. -/
theorem getOutcome_defined (hstatus : r.status = .returned ret)
    (hblock : blockOf n.toNat r = some (filled n.toNat bytes)) (h : GetInside n ret bytes) :
    getOutcome n.toNat (roomFor n) r ≠ .undefined := by
  obtain ⟨buffer, s, hbuffer, hs⟩ := h.scanned
  simp only [getOutcome, hstatus, hblock, getResponse, hbuffer, hs]
  unfold getParse
  rcases strstr blankLine s with _ | body
  · intro h
    cases h
  · intro h
    cases h

theorem postOutcome_defined (hstatus : r.status = .returned ret)
    (hblock : blockOf (roomFor n).toNat r = some (filled (roomFor n).toNat bytes)) (h : PostInside n ret bytes) :
    postOutcome (roomFor n) r ≠ .undefined := by
  obtain ⟨buffer, s, hbuffer, hs, hcode⟩ := h.scanned
  simp only [postOutcome, hstatus, hblock, postResponse, hbuffer, hs]
  unfold postParse
  rcases hc : strstr httpVersion s with _ | c
  · intro h
    cases h
  · obtain ⟨code, hthree, -⟩ := hcode c hc
    simp only [hthree]
    by_cases h200 : toInt (strtol (c.drop 9)) = 200
    · rw [if_neg (not_not.mpr h200)]
      rcases strstr blankLine s with _ | body
      · intro h
        cases h
      · intro h
        cases h
    · rw [if_pos h200]
      intro h
      cases h

end

end ComClient.Http
