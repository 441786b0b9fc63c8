/-
  ComClient.Http.Body — which body `get` and `post` take out of the bytes they received.

  What they search is the text before the first zero, without the last byte where the
  buffer is full (`received`).

  - `exactBody_iff`: the search itself is exact: `strstr` finds the first blank line.
  - `body_exact_iff`: so the outcome is that of the bytes received if and only if these have
    no blank line, or there is no zero among them and the buffer is not full.
-/

import ComClient.Http.Inside

namespace ComClient.Http

open ComClient.Transport ComClient.Libc

/-- What stands behind the first blank line, or the error where there is none. -/
structure ExactBody (bytes : List Byte) (o : Outcome) : Prop where
  body : ∀ before after, bytes = before ++ blankLine ++ after →
    (∀ b a, bytes = b ++ blankLine ++ a → before.length ≤ b.length) → o = .returned after
  malformed : ¬ blankLine <:+: bytes →
    o = .threw (.logError (message "Malformed HTTP response: no header delimiter"))

/-- `readS` has stored the bytes in a buffer of `n`, and returned how many they are. -/
structure Delivers (n : Nat) (bytes : List Byte) (r : Run (List Byte) Answer) : Prop where
  status : r.status = .returned bytes.length
  block : blockOf n r = some (filled n bytes)
  pos : 0 < bytes.length
  le : bytes.length ≤ n

/-! ## The search -/

/-- The first blank line of a text that has one. -/
theorem first_blank {bytes found : List Byte} (h : strstr blankLine bytes = some found) :
    ∃ before after, bytes = before ++ blankLine ++ after ∧ found = blankLine ++ after ∧
      ∀ b a, bytes = b ++ blankLine ++ a → before.length ≤ b.length := by
  obtain ⟨⟨before, hbefore⟩, ⟨after, hafter⟩⟩ := strstr_found h
  refine ⟨before, after, ?_, hafter.symm, ?_⟩
  · rw [List.append_assoc, hafter, hbefore]
  · intro b a hb
    have hle := strstr_first h hb
    rw [← hbefore, List.length_append] at hle
    omega

theorem exactBody_iff (bytes : List Byte) (o : Outcome) : ExactBody bytes o ↔ o = getParse bytes := by
  unfold getParse
  rcases hfound : strstr blankLine bytes with _ | found
  · have hno : ¬ blankLine <:+: bytes := strstr_eq_none_iff.mp hfound
    refine ⟨fun h => h.malformed hno, ?_⟩
    intro ho
    refine ⟨?_, fun _ => ho⟩
    intro before after hbytes _
    exact absurd ⟨before, after, hbytes.symm⟩ hno
  · obtain ⟨before, after, hbytes, rfl, hfirst⟩ := first_blank hfound
    have hdrop : (blankLine ++ after).drop 4 = after := List.drop_left' (by decide)
    simp only [hdrop]
    refine ⟨fun h => h.body before after hbytes hfirst, ?_⟩
    intro ho
    refine ⟨?_, fun hno => absurd ⟨before, after, hbytes.symm⟩ hno⟩
    intro before' after' hbytes' hfirst'
    -- two first places are the same place
    have hlen : before.length = before'.length :=
      Nat.le_antisymm (hfirst before' after' hbytes') (hfirst' before after hbytes)
    rw [hbytes, List.append_assoc, List.append_assoc] at hbytes'
    obtain ⟨-, hrest⟩ := List.append_inj hbytes' hlen
    rw [ho, List.append_cancel_left hrest]

/-! ## The text that is searched -/

theorem received_prefix (n : Nat) (bytes : List Byte) : received n bytes <+: bytes :=
  (List.takeWhile_prefix _).trans (List.take_prefix _ _)

theorem received_eq_iff {n : Nat} {bytes : List Byte} (hpos : 0 < bytes.length) :
    received n bytes = bytes ↔ 0 ∉ bytes ∧ bytes.length < n := by
  unfold received
  constructor
  · intro h
    have hlen := congrArg List.length h
    have htake := (List.takeWhile_prefix (l := bytes.take (n - 1)) (fun b => decide (b ≠ 0))).length_le
    rw [List.length_take] at htake
    refine ⟨?_, by omega⟩
    intro h0
    rw [← h] at h0
    have hne := List.mem_takeWhile_imp h0
    simp at hne
  · rintro ⟨h0, hlt⟩
    rw [List.take_of_length_le (by omega), takeWhile_nonzero h0]

/-- Without the end of the bytes the body is another one, or there is none. -/
theorem getParse_received_iff {n : Nat} {bytes : List Byte} (hpos : 0 < bytes.length) :
    getParse (received n bytes) = getParse bytes ↔ (blankLine <:+: bytes → 0 ∉ bytes ∧ bytes.length < n) := by
  rw [← received_eq_iff hpos]
  obtain ⟨rest, hrest⟩ := received_prefix n bytes
  constructor
  · intro h hblank
    have hsome : strstr blankLine bytes ≠ none := fun hnone => strstr_eq_none_iff.mp hnone hblank
    obtain ⟨found, hfound⟩ := Option.ne_none_iff_exists'.mp hsome
    unfold getParse at h
    rw [hfound] at h
    rcases hpart : strstr blankLine (received n bytes) with _ | part
    · rw [hpart] at h
      cases h
    · rw [hpart] at h
      have hwhole := strstr_append hpart rest
      rw [hrest, hfound] at hwhole
      cases hwhole
      have hfour : 4 ≤ part.length := (strstr_found hpart).2.length_le
      have hlen := congrArg List.length (Outcome.returned.inj h)
      rw [List.length_drop, List.length_drop, List.length_append] at hlen
      have hnil : rest = [] := List.eq_nil_of_length_eq_zero (by omega)
      rw [hnil, List.append_nil] at hrest
      exact hrest
  · intro h
    by_cases hblank : blankLine <:+: bytes
    · rw [h hblank]
    · have hpart : ¬ blankLine <:+: received n bytes := fun hp => hblank (hp.trans ⟨[], rest, hrest⟩)
      unfold getParse
      rw [strstr_eq_none_iff.mpr hpart, strstr_eq_none_iff.mpr hblank]

/-! ## The outcomes -/

/-- How a successful response begins. -/
def okLine : List Byte := ascii "HTTP/1.1 200 OK"

variable {n : Nat} {bytes : List Byte} {r : Run (List Byte) Answer}

theorem getOutcome_delivered (h : Delivers n bytes r) : getOutcome n n r = getParse (received n bytes) := by
  simp only [getOutcome, h.status, h.block, getResponse, terminate_received h.pos h.le, cstring_text]
  rfl

theorem postOutcome_delivered (h : Delivers n bytes r) :
    postOutcome n r = postParse (terminated n (bytes.take (n - 1))) (received n bytes) := by
  simp only [postOutcome, h.status, Int.toNat_natCast, h.block, postResponse, terminate_received h.pos h.le, cstring_text]
  rfl

/-- Whatever is cut off behind it, the status line is searched up to its code. -/
theorem received_okLine (h : okLine <+: bytes) (hle : bytes.length ≤ n) :
    ∃ rest, received n bytes = ascii "HTTP/1.1 200 O" ++ rest := by
  obtain ⟨tail, rfl⟩ := h
  have hlen : okLine.length = 15 := by decide
  have hsplit : okLine = ascii "HTTP/1.1 200 O" ++ ascii "K" := by decide
  have hshort : (ascii "HTTP/1.1 200 O").length = 14 := by decide
  rw [List.length_append, hlen] at hle
  unfold received
  rw [hsplit, List.append_assoc, List.take_append, List.take_of_length_le (by omega),
    List.takeWhile_append_of_pos (by decide)]
  exact ⟨_, rfl⟩

theorem post_is_get (h : Delivers n bytes r) (hok : okLine <+: bytes) : postOutcome n r = getOutcome n n r := by
  obtain ⟨rest, hrest⟩ := received_okLine hok h.le
  have hroom : 15 ≤ n := Nat.le_trans hok.length_le h.le
  have hversion : strstr httpVersion (received n bytes) = some (received n bytes) := by
    refine strstr_here ?_
    rw [hrest]
    exact List.IsPrefix.trans (by decide) (List.prefix_append (ascii "HTTP/1.1 200 O") rest)
  have hcode : toInt (strtol ((received n bytes).drop 9)) = 200 := by
    have hdrop : (ascii "HTTP/1.1 200 O" ++ rest).drop 9 = ascii "200" ++ (ascii " O" ++ rest) := by
      rw [List.drop_append_of_le_length (by decide), ← List.append_assoc]
      rfl
    have hblank : ∀ b, (ascii " O" ++ rest).head? = some b → isdigit b = false := by
      intro b hb
      cases hb
      decide
    rw [hrest, hdrop, strtol_append (by decide) (by decide) hblank]
    decide
  have hlt : (bytes.take (n - 1)).length < n := by
    rw [List.length_take]
    omega
  have hthree : three (terminated n (bytes.take (n - 1))) ((received n bytes).length - (received n bytes).length + 9) =
      some (((terminated n (bytes.take (n - 1))).drop 9).take 3) := by
    rw [Nat.sub_self, three, if_pos]
    rw [length_terminated hlt]
    omega
  rw [postOutcome_delivered h, getOutcome_delivered h, postParse_ok hversion hcode hthree]

/-- The body is exact if and only if there is no blank line among the bytes, or they have no
    zero and do not fill the buffer. -/
theorem body_exact_iff (h : Delivers n bytes r) :
    (ExactBody bytes (getOutcome n n r) ↔ (blankLine <:+: bytes → 0 ∉ bytes ∧ bytes.length < n)) ∧
      (okLine <+: bytes →
        (ExactBody bytes (postOutcome n r) ↔ (blankLine <:+: bytes → 0 ∉ bytes ∧ bytes.length < n))) := by
  have hget : ExactBody bytes (getOutcome n n r) ↔ (blankLine <:+: bytes → 0 ∉ bytes ∧ bytes.length < n) := by
    rw [exactBody_iff, getOutcome_delivered h]
    exact getParse_received_iff h.pos
  refine ⟨hget, ?_⟩
  intro hok
  rw [post_is_get h hok]
  exact hget

/-- A run of one call that stored the bytes. -/
def oneCall (n : Nat) (bytes : List Byte) : Run (List Byte) Answer :=
  ⟨[⟨3, 0, n, some (.data bytes)⟩], .returned bytes.length, store (fun _ => 0) 0 bytes, [], []⟩

theorem delivers_oneCall (hpos : 0 < bytes.length) (hle : bytes.length ≤ n) : Delivers n bytes (oneCall n bytes) :=
  ⟨rfl, blockOf_one hle, hpos, hle⟩

def okPage : List Byte := ascii "HTTP/1.1 200 OK\r\n\r\nbody"

theorem body_exact_iff_for_a_short_page :
    (ExactBody okPage (getOutcome 64 64 (oneCall 64 okPage)) ↔
        (blankLine <:+: okPage → 0 ∉ okPage ∧ okPage.length < 64)) ∧
      (okLine <+: okPage →
        (ExactBody okPage (postOutcome 64 (oneCall 64 okPage)) ↔
          (blankLine <:+: okPage → 0 ∉ okPage ∧ okPage.length < 64))) :=
  body_exact_iff (delivers_oneCall (by decide +kernel) (by decide +kernel))

/-- In a buffer of its length the page loses its last byte. -/
theorem a_full_buffer_cuts_the_body :
    getOutcome 23 23 (oneCall 23 okPage) = .returned (ascii "bod") ∧
      postOutcome 23 (oneCall 23 okPage) = .returned (ascii "bod") ∧
      ¬ ExactBody okPage (getOutcome 23 23 (oneCall 23 okPage)) ∧
      ¬ ExactBody okPage (postOutcome 23 (oneCall 23 okPage)) := by
  have hget : getOutcome 23 23 (oneCall 23 okPage) = .returned (ascii "bod") := by decide +kernel
  have hpost : postOutcome 23 (oneCall 23 okPage) = .returned (ascii "bod") := by decide +kernel
  have hwhole : getParse okPage = .returned (ascii "body") := by decide +kernel
  have hne : Outcome.returned (ascii "bod") ≠ .returned (ascii "body") := by decide
  refine ⟨hget, hpost, ?_, ?_⟩
  · rw [exactBody_iff, hget, hwhole]
    exact hne
  · rw [exactBody_iff, hpost, hwhole]
    exact hne

end ComClient.Http
