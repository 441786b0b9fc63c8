/-
  ComClient.Http.Status — which responses `post` takes for successful ones.

  The status is what `strtol` makes of the text behind the first `"HTTP/1.1 "`, wherever
  that stands, converted to an `int`; a copy of three bytes is taken behind it at the same
  time.

  - `int_of_strtol_iff`: when `strtol` reads a number that an `int` holds as `k`.
  - `only_success_iff`: a body is returned for the responses that begin with a status line
    of 200 and have a blank line, and every other response is refused, if and only if there
    is a response, the three bytes are inside the buffer, and the first `"HTTP/1.1 "` of a
    response that is not of that form is not followed by a numeral for 200.
-/

import ComClient.Http.Body

namespace ComClient.Http

open ComClient.Transport ComClient.Libc

/-- The response begins with `"HTTP/1.1 200"` and a blank or the end of the line, and its headers
    end. -/
def Success (bytes : List Byte) : Prop :=
  (∃ b, (b = 0x20 ∨ b = 0x0d) ∧ ok200 ++ [b] <+: bytes) ∧ blankLine <:+: bytes

/-- A body for a successful response, an exception for any other. -/
structure OnlySuccess (bytes : List Byte) (o : Outcome) : Prop where
  accepted : Success bytes → ∃ body, o = .returned body
  refused : ¬ Success bytes → ∃ thrown, o = .threw thrown

/-- The text begins with a numeral that a `long` holds and of which an `int` keeps `k`. -/
def SpelledAs (k : Int) (text : List Byte) : Prop := ∃ v, Numeral text v ∧ -2 ^ 63 ≤ v ∧ v < 2 ^ 63 ∧ toInt v = k

/-! ## The code -/

theorem int_of_strtol_iff (text : List Byte) : toInt (strtol text) = 200 ↔ SpelledAs 200 text := by
  constructor
  · intro h
    rcases numeral_or_zero text with ⟨v, hv⟩ | hzero
    · rw [strtol_numeral hv] at h
      -- the two ends of the range are -1 and 0 as an `int`
      have hlow : -2 ^ 63 ≤ v := by
        by_contra hlow
        rw [max_eq_left (by omega)] at h
        exact absurd h (by decide)
      have hhigh : v < 2 ^ 63 := by
        by_contra hhigh
        rw [min_eq_right (by omega), max_eq_right (by omega)] at h
        exact absurd h (by decide)
      rw [min_eq_left (by omega), max_eq_right hlow] at h
      exact ⟨v, hv, hlow, hhigh, h⟩
    · rw [hzero] at h
      exact absurd h (by decide)
  · rintro ⟨v, hv, hlow, hhigh, h⟩
    rw [strtol_numeral hv, min_eq_left (by omega), max_eq_right hlow]
    exact h

/-- A status line of 200 is read as that. -/
theorem success_spelled {bytes : List Byte} (h : Success bytes) :
    strstr httpVersion bytes = some bytes ∧ SpelledAs 200 (bytes.drop 9) := by
  obtain ⟨⟨b, hb, tail, rfl⟩, -⟩ := h
  have hversion : httpVersion <+: ok200 := by decide
  refine ⟨strstr_here ?_, 200, ?_, by decide, by decide, by decide⟩
  · rw [List.append_assoc]
    exact hversion.trans (List.prefix_append _ _)
  · have hdrop : (ok200 ++ [b] ++ tail).drop 9 = [] ++ (ascii "200" ++ (b :: tail)) := by
      rw [List.append_assoc, List.drop_append_of_le_length (by decide)]
      rfl
    have hnumber : (200 : Int) = number (ascii "200") := by decide
    rw [hdrop, hnumber]
    refine .plain [] (ascii "200") (b :: tail) (by simp) (by decide) (by decide) ?_
    intro c hc
    cases hc
    rcases hb with rfl | rfl <;> decide

/-! ## The outcome -/

section

variable {n : Nat} {bytes : List Byte}

theorem three_iff (i : Nat) (hlt : bytes.length < n) : three (terminated n bytes) i = none ↔ ¬ i + 3 ≤ n := by
  rw [three, length_terminated hlt, ite_eq_right_iff]
  constructor
  · intro h hroom
    cases h hroom
  · intro h hroom
    exact absurd hroom h

/-- What becomes of a response in which the version stands at `c`, with three bytes behind it. -/
theorem onlySuccess_read {buffer codeStr : Block} {c : List Byte} (hc : strstr httpVersion bytes = some c)
    (hthree : three buffer (bytes.length - c.length + 9) = some codeStr) :
    OnlySuccess bytes (postParse buffer bytes) ↔
      (blankLine <:+: bytes → ¬ Success bytes → ¬ SpelledAs 200 (c.drop 9)) := by
  by_cases hcode : toInt (strtol (c.drop 9)) = 200
  · rw [postParse_ok hc hcode hthree, getParse]
    have hspelled := (int_of_strtol_iff _).mp hcode
    rcases hblank : strstr blankLine bytes with _ | body
    · have hno : ¬ blankLine <:+: bytes := strstr_eq_none_iff.mp hblank
      refine iff_of_true ⟨fun hs => absurd hs.2 hno, fun _ => ⟨_, rfl⟩⟩ ?_
      intro hyes
      exact absurd hyes hno
    · have hyes : blankLine <:+: bytes := by
        by_contra hno
        rw [strstr_eq_none_iff.mpr hno] at hblank
        cases hblank
      constructor
      · intro h _ hs
        obtain ⟨thrown, hthrown⟩ := h.refused hs
        cases hthrown
      · intro h
        refine ⟨fun _ => ⟨_, rfl⟩, ?_⟩
        intro hs
        exact absurd hspelled (h hyes hs)
  · unfold postParse
    simp only [hc, hthree]
    rw [if_pos hcode]
    refine iff_of_true ⟨?_, fun _ => ⟨_, rfl⟩⟩ ?_
    · intro hs
      obtain ⟨hbegin, hspelled⟩ := success_spelled hs
      rw [hc] at hbegin
      cases hbegin
      exact absurd ((int_of_strtol_iff _).mpr hspelled) hcode
    · intro _ _ hspelled
      exact hcode ((int_of_strtol_iff _).mpr hspelled)

/-- The three bytes have to be in the buffer. -/
theorem onlySuccess_found {c : List Byte} (hlt : bytes.length < n) (hc : strstr httpVersion bytes = some c) :
    OnlySuccess bytes (postParse (terminated n bytes) bytes) ↔
      bytes.length - c.length + 12 ≤ n ∧ (blankLine <:+: bytes → ¬ Success bytes → ¬ SpelledAs 200 (c.drop 9)) := by
  rcases hthree : three (terminated n bytes) (bytes.length - c.length + 9) with _ | codeStr
  · have hout := (three_iff _ hlt).mp hthree
    refine iff_of_false ?_ (fun h => hout h.1)
    intro h
    unfold postParse at h
    simp only [hc, hthree] at h
    by_cases hs : Success bytes
    · obtain ⟨body, hbody⟩ := h.accepted hs
      cases hbody
    · obtain ⟨thrown, hthrown⟩ := h.refused hs
      cases hthrown
  · have hroom : bytes.length - c.length + 12 ≤ n := by
      by_contra hroom
      rw [(three_iff _ hlt).mpr hroom] at hthree
      cases hthree
    rw [and_iff_right hroom]
    exact onlySuccess_read hc hthree

theorem onlySuccess_not_found (hc : strstr httpVersion bytes = none) :
    OnlySuccess bytes (postParse (terminated n bytes) bytes) := by
  unfold postParse
  simp only [hc]
  refine ⟨?_, fun _ => ⟨_, rfl⟩⟩
  intro hs
  rw [(success_spelled hs).1] at hc
  cases hc

/-- For bytes without a zero, fewer than the buffer has. -/
theorem only_success_iff {r : Run (List Byte) Answer} (hstatus : r.status = .returned bytes.length)
    (hblock : blockOf n r = some (filled n bytes)) (h0 : 0 ∉ bytes) (hlt : bytes.length < n) :
    OnlySuccess bytes (postOutcome n r) ↔
      bytes ≠ [] ∧ ∀ c, strstr httpVersion bytes = some c → bytes.length - c.length + 12 ≤ n ∧
        (blankLine <:+: bytes → ¬ Success bytes → ¬ SpelledAs 200 (c.drop 9)) := by
  have houtcome : postOutcome n r = postResponse n bytes.length (filled n bytes) := by
    simp only [postOutcome, hstatus, Int.toNat_natCast, hblock]
  rw [houtcome]
  by_cases hempty : bytes = []
  · -- nothing was stored, and `strstr` looks at what was there before
    subst hempty
    have hundefined : postResponse n 0 (filled n []) = .undefined := by
      have hpos : 0 < n := hlt
      obtain ⟨k, rfl⟩ := Nat.exists_eq_succ_of_ne_zero (Nat.ne_of_gt hpos)
      unfold postResponse terminate
      rw [if_neg (by omega), if_neg (by omega)]
      rfl
    refine iff_of_false ?_ (fun h => h.1 rfl)
    intro h
    have hno : ¬ Success [] := by
      rintro ⟨⟨b, -, hb⟩, -⟩
      have hlen := hb.length_le
      simp at hlen
    obtain ⟨thrown, hthrown⟩ := h.refused hno
    rw [List.length_nil, Nat.cast_zero, hundefined] at hthrown
    cases hthrown
  · have hpos : 0 < bytes.length := List.length_pos_iff.mpr hempty
    rw [postResponse_filled h0 hpos hlt, and_iff_right hempty]
    rcases hc : strstr httpVersion bytes with _ | c
    · refine iff_of_true (onlySuccess_not_found hc) ?_
      intro c hc'
      cases hc'
    · rw [onlySuccess_found hlt hc]
      constructor
      · intro h c' hc'
        cases hc'
        exact h
      · intro h
        exact h c rfl

end

theorem only_success_iff_for_a_short_page :
    OnlySuccess okPage (postOutcome 64 (oneCall 64 okPage)) ↔
      okPage ≠ [] ∧ ∀ c, strstr httpVersion okPage = some c → okPage.length - c.length + 12 ≤ 64 ∧
        (blankLine <:+: okPage → ¬ Success okPage → ¬ SpelledAs 200 (c.drop 9)) :=
  only_success_iff rfl (blockOf_one (by decide +kernel)) (by decide +kernel) (by decide +kernel)

/-- Another version and another code, and `"HTTP/1.1 "` in a header. -/
def foreignPage : List Byte := ascii "HTTP/1.0 404 Not Found\r\nVia: HTTP/1.1 +0200 x\r\n\r\nbody"

/-- The header is taken for the status line. -/
theorem a_header_is_taken_for_the_status :
    postOutcome 64 (oneCall 64 foreignPage) = .returned (ascii "body") ∧ 0 ∉ foreignPage ∧ foreignPage.length < 64 ∧
      ¬ Success foreignPage ∧ ¬ OnlySuccess foreignPage (postOutcome 64 (oneCall 64 foreignPage)) := by
  have hout : postOutcome 64 (oneCall 64 foreignPage) = .returned (ascii "body") := by decide +kernel
  have hno : ¬ Success foreignPage := by
    rintro ⟨⟨b, -, hb⟩, -⟩
    have hbegin : ok200 <+: foreignPage := (List.prefix_append _ _).trans hb
    exact absurd hbegin (by decide +kernel)
  refine ⟨hout, by decide +kernel, by decide +kernel, hno, ?_⟩
  intro h
  obtain ⟨thrown, hthrown⟩ := h.refused hno
  rw [hout] at hthrown
  cases hthrown

end ComClient.Http
