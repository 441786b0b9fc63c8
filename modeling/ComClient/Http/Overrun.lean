/-
  ComClient.Http.Overrun — what the formatting of a request header does to the members
  of an `HTTP` object.

  `snprintf` is told of 2048 bytes and `m_header` has 2024, so a header of 2024 bytes or
  more is stored beyond it, into `m_content_length`, by which `post` measures the content.

  - `header_kept_iff`: a `get` stores nothing beyond `m_header`, and a `post` keeps its
    header inside and hands over exactly its content, if and only if the header with its
    terminator fits and, for `post`, the length of the content is an `int`. A `get` that
    cannot allocate its buffer throws before it formats anything.
-/

import ComClient.Http.Get

namespace ComClient.Http

open ComClient.Transport ComClient.Libc

variable {h : HTTP} {p : Post} (accept : List Byte → Int) (heap : Mem) (n : Int) (inbox : List Byte) (es : List Answer)

/-! ## `get` -/

/-- The members after a call. -/
theorem get_mem (page : CStr) :
    (h.get accept heap page n inbox es).mem =
      if n < 0 then h.mem else snprintf h.mem headerBound (getHeader page.text h.ip.text) := by
  obtain ⟨len, hlen⟩ := strlen_snprintf h.mem (show 0 < headerBound by decide) (getHeader page.text h.ip.text)
  unfold HTTP.get
  by_cases hn : n < 0
  · rw [if_pos hn, if_pos hn]
  · simp only [if_neg hn, writeHeader, hlen, Option.map_some]

theorem get_inside_iff (page : CStr) :
    (∀ (m : Mem) (i : Int), i < 0 ∨ headerSize ≤ i →
      ({ h with mem := m }.get accept heap page n inbox es).mem i = m i) ↔
      n < 0 ∨ (getHeader page.text h.ip.text).length < headerSize := by
  have hfits := snprintf_inside_iff (show headerSize < headerBound by decide) (getHeader page.text h.ip.text)
  simp only [get_mem]
  by_cases hn : n < 0
  · simp [hn]
  · simp only [hn, ↓reduceIte, false_or]
    exact hfits

/-! ## `post` -/

/-- What `post` formats. -/
def postText (h : HTTP) (p : Post) : List Byte :=
  header (decide (0 < contentLength (countContent p.content h.mem))) p.page.text h.ip.text
    (contentLength (countContent p.content h.mem))

/-- The members after the formatting. -/
def postMem (h : HTTP) (p : Post) : Mem := snprintf (countContent p.content h.mem) headerBound (postText h p)

/-- The size that the `writeS` of the content is given; 0 where it is not called. -/
def bodyGiven (m : Mem) : Nat := if 0 < contentLength m then (toSizeT (contentLength m)).val else 0

/-- A call that leaves `r` has kept its header with the terminator inside `m_header`, and has
    gone on with the length of its content. -/
structure HeaderKept (h : HTTP) (p : Post) (r : Posted) : Prop where
  inside : ∀ i : Int, i < 0 ∨ headerSize ≤ i → r.mem i = countContent p.content h.mem i
  terminated : ∃ len, strlen r.mem headerSize = some len
  length : contentLength r.mem = p.size
  given : bodyGiven r.mem = p.size
  sent : h.tcp.isConnected = true → r.sent.flatMap Sent.bytes = p.request h.ip

theorem post_mem : (h.post accept heap p.page p.content n inbox es).mem = postMem h p := by
  unfold HTTP.post
  cases hw : writeHeader h.tcp accept (postMem h p) with
  | none => simp only [show formatHeader _ p.page h.ip _ = postMem h p from rfl, hw]
  | some w => simp only [show formatHeader _ p.page h.ip _ = postMem h p from rfl, hw]

/-- Where no length is left, the header is all that is sent. -/
theorem post_sent_once (hnone : contentLength (postMem h p) ≤ 0) :
    (h.post accept heap p.page p.content n inbox es).sent.length ≤ 1 := by
  unfold HTTP.post
  cases hw : writeHeader h.tcp accept (postMem h p) with
  | none => simp only [show formatHeader _ p.page h.ip _ = postMem h p from rfl, hw, List.length_nil, Nat.zero_le]
  | some w =>
    simp only [show formatHeader _ p.page h.ip _ = postMem h p from rfl, hw, if_neg (Int.not_lt.mpr hnone), List.append_nil]
    cases w.sent <;> simp

theorem contentLength_lt (m : Mem) : contentLength m < 2 ^ 31 := by
  have hlt := BitVec.toInt_lt (x := load32 m headerSize)
  simpa [contentLength] using hlt

theorem bodyGiven_of_length {m : Mem} (h : contentLength m = p.size) : bodyGiven m = p.size := by
  have hlt := contentLength_lt m
  unfold bodyGiven
  rw [h]
  split
  · exact toSizeT_natCast (by omega)
  · omega

/-- A content of fewer than 2^31 bytes is formatted with its length. -/
theorem postText_eq (hsize : p.size < 2 ^ 31) : postText h p = p.header h.ip := by
  rw [postText, contentLength_countContent hsize h.mem, Post.header]
  simp [Int.natCast_pos]

theorem header_kept_of_fits (hfits : p.Fits h.ip) :
    HeaderKept h p (h.post accept heap p.page p.content n inbox es) := by
  have hmem : (h.post accept heap p.page p.content n inbox es).mem =
      snprintf (countContent p.content h.mem) headerBound (p.header h.ip) := by
    rw [post_mem, postMem, postText_eq hfits.size]
  have hinside := (snprintf_inside_iff (show headerSize < headerBound by decide) (p.header h.ip)).mpr hfits.header
  have hlength : contentLength (h.post accept heap p.page p.content n inbox es).mem = p.size := by
    have hsame : load32 (h.post accept heap p.page p.content n inbox es).mem headerSize =
        load32 (countContent p.content h.mem) headerSize := by
      refine load32_congr ?_
      intro i hi _
      rw [hmem]
      exact hinside _ i (Or.inr hi)
    rw [contentLength, hsame]
    exact contentLength_countContent hfits.size h.mem
  constructor
  case inside =>
    intro i hi
    rw [hmem]
    exact hinside _ i hi
  case terminated =>
    rw [hmem]
    exact (strlen_snprintf_iff _ (by decide) (p.header_nonzero h.ip)).mpr hfits.header
  case length => exact hlength
  case given => exact bodyGiven_of_length hlength
  case sent => exact fun htcp => post_sent htcp hfits accept heap n inbox es

theorem fits_of_header_kept (hkept : HeaderKept h p (h.post accept heap p.page p.content n inbox es)) :
    p.Fits h.ip := by
  have hsize : p.size < 2 ^ 31 := by
    have hlt := contentLength_lt (h.post accept heap p.page p.content n inbox es).mem
    rw [hkept.length] at hlt
    omega
  have hterminated := hkept.terminated
  rw [post_mem, postMem, postText_eq hsize] at hterminated
  exact ⟨(strlen_snprintf_iff _ (by decide) (p.header_nonzero h.ip)).mp hterminated, hsize⟩

/-- The formatting of `get` and of `post` stays inside `m_header`, and `post` measures its
    content rightly, if and only if the header fits and the length is an `int`; or nothing is
    formatted. -/
theorem header_kept_iff (h : HTTP) (accept : List Byte → Int) (heap : Mem) (n : Int) (inbox : List Byte)
    (es : List Answer) :
    (∀ page : CStr, (∀ (m : Mem) (i : Int), i < 0 ∨ headerSize ≤ i →
        ({ h with mem := m }.get accept heap page n inbox es).mem i = m i) ↔
      n < 0 ∨ (getHeader page.text h.ip.text).length < headerSize) ∧
    ∀ p : Post, HeaderKept h p (h.post accept heap p.page p.content n inbox es) ↔ p.Fits h.ip :=
  ⟨get_inside_iff accept heap n inbox es, fun _ =>
    ⟨fits_of_header_kept accept heap n inbox es, header_kept_of_fits accept heap n inbox es⟩⟩

theorem form_nonzero : (0 : Byte) ∉ ascii "x=1" := by decide

def formContent : CStr := CStr.of (ascii "x=1") form_nonzero

/-- A page with which the header has 2024 bytes. -/
def longPage : CStr := CStr.of (List.replicate 1893 97) (by decide +kernel)

/-- A call that reads once and receives nothing. -/
def longPost : Posted := localhost.post (fun bs => bs.length) (fun _ => 0) longPage (some formContent) (-1) [] []

/-- The terminator of the header is stored over the length of the content: the content is
    not sent. -/
theorem a_long_header_takes_the_length :
    (postText localhost ⟨longPage, some formContent⟩).length = headerSize ∧
      Post.size ⟨longPage, some formContent⟩ = 3 ∧ contentLength longPost.mem = 0 ∧ longPost.sent.length ≤ 1 ∧
      ¬ HeaderKept localhost ⟨longPage, some formContent⟩ longPost := by
  have htext : (postText localhost ⟨longPage, some formContent⟩).length = headerSize := by decide +kernel
  have hzero : contentLength (postMem localhost ⟨longPage, some formContent⟩) = 0 := by decide +kernel
  have hmem : longPost.mem = postMem localhost ⟨longPage, some formContent⟩ :=
    post_mem (p := ⟨longPage, some formContent⟩) _ _ _ _ _
  have honce : longPost.sent.length ≤ 1 :=
    post_sent_once (p := ⟨longPage, some formContent⟩) _ _ _ _ _ (Int.le_of_eq hzero)
  have hlength : contentLength longPost.mem = 0 := by rw [hmem, hzero]
  refine ⟨htext, rfl, hlength, honce, ?_⟩
  intro hkept
  have hthree := hkept.length
  rw [hlength] at hthree
  exact absurd hthree (by decide)

end ComClient.Http
