/-
  ComClient.Http.Request — what `post` sends (`post_sent`), where the header with its
  terminator fits into `m_header` and the length of the content is an `int`.

  A header that does not fit runs into `m_content_length`, which `post` looks at again
  before it sends the content.
-/

import ComClient.Http.Code

namespace ComClient.Http

open ComClient.Transport ComClient.Libc

/-- The arguments of a call. -/
structure Post where
  page : CStr
  content : Option CStr

def Post.size (p : Post) : Nat := (p.content.map CStr.len).getD 0

def Post.contentText (p : Post) : List Byte := (p.content.map CStr.text).getD []

def Post.header (ip : CStr) (p : Post) : List Byte := Http.header (decide (0 < p.size)) p.page.text ip.text p.size

/-- The request of a call. -/
def Post.request (ip : CStr) (p : Post) : List Byte := p.header ip ++ p.contentText

structure Post.Fits (ip : CStr) (p : Post) : Prop where
  header : (p.header ip).length < headerSize
  size : p.size < 2 ^ 31

theorem Post.length_contentText (p : Post) : p.contentText.length = p.size := by
  rcases p with ⟨page, _ | content⟩ <;> simp [Post.contentText, Post.size]

theorem Post.header_nonzero (ip : CStr) (p : Post) : 0 ∉ p.header ip := by
  have hstr : ∀ s : CStr, 0 ∉ (Arg.str s.text).text := CStr.text_nonzero
  unfold Post.header Http.header
  split
  · refine printf_nonzero (by decide +kernel) ?_
    intro a ha
    simp only [List.mem_cons, List.not_mem_nil, or_false] at ha
    rcases ha with rfl | rfl | rfl
    · exact hstr p.page
    · exact hstr ip
    · exact decimal_nonzero p.size
  · refine printf_nonzero (by decide +kernel) ?_
    intro a ha
    simp only [List.mem_cons, List.not_mem_nil, or_false] at ha
    rcases ha with rfl | rfl
    · exact hstr p.page
    · exact hstr ip

/-! ## The members -/

theorem load32_congr {m m' : Mem} {o : Int} (h : ∀ i, o ≤ i → i < o + 4 → m i = m' i) : load32 m o = load32 m' o := by
  rw [load32, load32, h (o + 3) (by omega) (by omega), h (o + 2) (by omega) (by omega), h (o + 1) (by omega) (by omega),
    h o (by omega) (by omega)]

theorem bytes32 (v : BitVec 32) :
    (v >>> 24).setWidth 8 ++ (v >>> 16).setWidth 8 ++ (v >>> 8).setWidth 8 ++ v.setWidth 8 = v := by
  ext i hi
  simp only [BitVec.getElem_append]
  simp
  grind

theorem load32_store32 (m : Mem) (o : Int) (v : BitVec 32) : load32 (store32 m o v) o = v := by
  have hbyte : ∀ k : Nat, k < 4 → store32 m o v (o + k) =
      [v.setWidth 8, (v >>> 8).setWidth 8, (v >>> 16).setWidth 8, (v >>> 24).setWidth 8].getD k 0 := by
    intro k hk
    rw [store32, store_in _ _ _ (by omega) (by simp; omega), show (o + (k : Int) - o).toNat = k by omega]
  have h0 := hbyte 0 (by omega)
  have h1 := hbyte 1 (by omega)
  have h2 := hbyte 2 (by omega)
  have h3 := hbyte 3 (by omega)
  simp only [Nat.cast_zero, Int.add_zero, Nat.cast_one, Nat.cast_ofNat] at h0 h1 h2 h3
  rw [load32, h0, h1, h2, h3]
  exact bytes32 v

theorem contentLength_countContent {p : Post} (h : p.size < 2 ^ 31) (m : Mem) :
    contentLength (countContent p.content m) = p.size := by
  have hnat : (BitVec.ofNat 32 p.size).toNat = p.size := by
    rw [BitVec.toNat_ofNat, Nat.mod_eq_of_lt (by omega)]
  unfold contentLength countContent
  rw [load32_store32]
  show (BitVec.ofNat 32 p.size).toInt = p.size
  rw [BitVec.toInt_eq_toNat_of_lt (by omega), hnat]

/-- A header that fits leaves the length alone. -/
theorem contentLength_formatHeader {withData : Bool} {page ip : CStr} {m : Mem}
    (h : (header withData page.text ip.text (contentLength m)).length < headerSize) :
    contentLength (formatHeader withData page ip m) = contentLength m := by
  have hsame : load32 (formatHeader withData page ip m) headerSize = load32 m headerSize := by
    apply load32_congr
    intro i hi _
    apply snprintf_out
    omega
  rw [contentLength, hsame]
  rfl

/-! ## The writes -/

/-- Without a checksum `writeS` hands over what it is given. -/
theorem writeS_sent {tcp : Client} (h : tcp.isConnected = true) (accept : List Byte → Int) (buffer : Mem) (size : SizeT) :
    (TCP.writeS tcp accept buffer size false).sent = some ⟨tcp.fd, load buffer 0 size.val, none⟩ := by
  have hwire : wireSize size false = size := add_zero size
  simp [TCP.writeS, h, handOver, hwire]

theorem toSizeT_natCast {n : Nat} (h : n < 2 ^ 64) : (toSizeT n).val = n := by
  have hval := toSizeT_val n
  omega

variable {ip : CStr} {p : Post}

/-- What the formatting of a request leaves. -/
structure Formatted (ip : CStr) (p : Post) (m : Mem) : Prop where
  length : contentLength m = p.size
  text : load m 0 (p.header ip).length = p.header ip
  strlen : strlen m headerBound = some (p.header ip).length

theorem formatted (hp : p.Fits ip) {m : Mem} (h : contentLength m = p.size) :
    Formatted ip p (formatHeader (decide (0 < p.size)) p.page ip m) := by
  have hheader : Http.header (decide (0 < p.size)) p.page.text ip.text (contentLength m) = p.header ip := by
    rw [h]
    rfl
  have hfits : (p.header ip).length < headerSize := hp.header
  have hroom : (p.header ip).length < headerBound := by
    simp only [headerSize, headerBound] at hfits ⊢
    omega
  refine ⟨?_, ?_, ?_⟩
  · rw [contentLength_formatHeader (by rw [hheader]; exact hfits), h]
  · rw [formatHeader, hheader]
    exact load_snprintf_text hroom
  · rw [formatHeader, hheader]
    exact strlen_text (load_snprintf hroom) (p.header_nonzero ip) hroom

/-- The header is read back as it was formatted. -/
theorem writeHeader_sent {tcp : Client} (htcp : tcp.isConnected = true) (hp : p.Fits ip) {m : Mem}
    (h : Formatted ip p m) (accept : List Byte → Int) :
    (TCP.writeS tcp accept m (toSizeT (p.header ip).length) false).sent = some ⟨tcp.fd, p.header ip, none⟩ := by
  have hfits : (p.header ip).length < 2024 := hp.header
  rw [writeS_sent htcp, toSizeT_natCast (by omega), h.text]

theorem writeContent_sent {tcp : Client} (htcp : tcp.isConnected = true) (hp : p.Fits ip) (hpos : 0 < p.size)
    (accept : List Byte → Int) :
    writeContent tcp accept p.content p.size = [⟨tcp.fd, p.contentText, none⟩] := by
  have hsize := hp.size
  rcases p with ⟨page, _ | content⟩
  · exact absurd hpos (by simp [Post.size])
  · have hval : (toSizeT (Post.size ⟨page, some content⟩)).val = content.len := toSizeT_natCast (by omega)
    simp only [writeContent, writeS_sent htcp, hval]
    rfl

theorem contentText_of_empty (h : ¬ 0 < p.size) : p.contentText = [] := by
  have hlen := p.length_contentText
  exact List.eq_nil_of_length_eq_zero (by omega)

/-- A call sends its request. -/
theorem post_sent {h : HTTP} (htcp : h.tcp.isConnected = true) (hp : p.Fits h.ip) (accept : List Byte → Int) (heap : Mem)
    (n : Int) (inbox : List Byte) (es : List Answer) :
    (h.post accept heap p.page p.content n inbox es).sent.flatMap Sent.bytes = p.request h.ip := by
  have hcount : contentLength (countContent p.content h.mem) = p.size := contentLength_countContent hp.size h.mem
  have hformatted := formatted hp hcount
  have hdecide : decide (0 < contentLength (countContent p.content h.mem)) = decide (0 < p.size) := by
    rw [hcount]
    exact decide_eq_decide.mpr Int.natCast_pos
  unfold HTTP.post
  simp only [hdecide, writeHeader, hformatted.strlen, Option.map_some, writeHeader_sent htcp hp hformatted,
    hformatted.length, Option.toList_some]
  by_cases hpos : 0 < p.size
  · rw [if_pos (Int.natCast_pos.mpr hpos), writeContent_sent htcp hp hpos]
    simp [Post.request]
  · rw [if_neg (by omega)]
    simp [Post.request, contentText_of_empty hpos]

end ComClient.Http
