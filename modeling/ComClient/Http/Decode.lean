/-
  ComClient.Http.Decode — what a reader makes of the requests that `get` and `post` send.

  The page, the host and the content stand in a request as they were given. The reader
  takes the lines up to an empty one, the first of them split at its blanks and the others
  as fields, and behind them the bytes that `Content-Length` counts (`readRequest`).

  - `readRequest_requestText`: what is written without a blank and a line end in the wrong
    place is read back.
  - `one_line`: nothing else can be read back as it was.
  - `request_read_iff`: so a call's request is read as what the call was given if and only
    if the page has neither a blank nor a line feed, and the host no line feed.
-/

import ComClient.Http.Overrun
import ComClient.Http.Paired
import ComClient.Lines.Head

namespace ComClient.Http

open ComClient.Transport ComClient.Libc

def lineFeed : Byte := 0x0a

def blank : Byte := 0x20

def colon : Byte := 0x3a

/-! ## Reading -/

abbrev Field := List Byte × List Byte

structure Request where
  method : List Byte
  page : List Byte
  /-- The values of the `Host` fields. -/
  hosts : List (List Byte)
  body : List Byte
  /-- What stands behind the body. -/
  left : List Byte
  deriving DecidableEq

def readField (line : List Byte) : Option Field :=
  (strstr (ascii ": ") line).map fun found => (line.take (line.length - found.length), found.drop 2)

def values (name : List Byte) (fields : List Field) : List (List Byte) :=
  (fields.filter fun f => decide (f.1 = name)).map Prod.snd

/-- A missing `Content-Length` counts nothing. -/
def bodyLength (fields : List Field) : Option Nat :=
  match values (ascii "Content-Length") fields with
  | [] => some 0
  | [v] => if v ≠ [] ∧ v.all isdigit = true then some (number v) else none
  | _ => none

def readBody (method page : List Byte) (fields : List Field) (rest : List Byte) : Option Request :=
  match bodyLength fields with
  | some n =>
    if n ≤ rest.length then some ⟨method, page, values (ascii "Host") fields, rest.take n, rest.drop n⟩ else none
  | none => none

def readRequest (bytes : List Byte) : Option Request :=
  match Lines.head lineFeed [] bytes with
  | some (line :: lines, rest) =>
    match line.splitOn blank, lines.mapM readField with
    | [method, page, _], some fields => readBody method page fields rest
    | _, _ => none
  | _ => none

/-! ## Writing -/

def fieldLine (f : Field) : List Byte := f.1 ++ (ascii ": " ++ f.2)

def requestText (method page : List Byte) (fields : List Field) (body : List Byte) : List Byte :=
  Lines.render lineFeed ((method ++ blank :: (page ++ blank :: ascii "HTTP/1.1")) :: fields.map fieldLine) body

/-- The fields of every request. -/
def commonFields (ip : List Byte) : List Field :=
  [(ascii "Host", ip), (ascii "User-Agent", ascii "aightech"), (ascii "Accept", ascii "*/*")]

def dataFields (ip : List Byte) (length : Nat) : List Field :=
  commonFields ip ++
    [(ascii "Content-Length", decimal length), (ascii "Content-Type", ascii "application/x-www-form-urlencoded")]

/-- A name ends at its colon, and a field at its line's end. -/
structure Writable (f : Field) : Prop where
  noColon : colon ∉ f.1
  name : lineFeed ∉ f.1
  value : lineFeed ∉ f.2

theorem readField_fieldLine {f : Field} (h : Writable f) : readField (fieldLine f) = some f := by
  have hcolon : ascii ": " = colon :: ascii " " := by decide
  have hfound : strstr (ascii ": ") (fieldLine f) = some (ascii ": " ++ f.2) := by
    rw [fieldLine, hcolon, strstr_skip h.noColon, strstr_here (List.prefix_append _ _)]
  have hlen : (f.1 ++ (ascii ": " ++ f.2)).length = f.1.length + (ascii ": " ++ f.2).length := List.length_append
  rw [readField, hfound, Option.map_some, fieldLine, hlen, Nat.add_sub_cancel, List.take_left' rfl,
    List.drop_left' (by decide)]

theorem readFields_fieldLines {fields : List Field} (h : ∀ f ∈ fields, Writable f) :
    (fields.map fieldLine).mapM readField = some fields := by
  induction fields with
  | nil => rfl
  | cons f fields ih =>
    obtain ⟨hf, hfields⟩ := List.forall_mem_cons.mp h
    rw [List.map_cons, List.mapM_cons, readField_fieldLine hf, ih hfields]
    rfl

theorem fit_fieldLine {f : Field} (h : Writable f) : Lines.Fit lineFeed (fieldLine f) := by
  have hcolon : ascii ": " ≠ [] ∧ lineFeed ∉ ascii ": " := by decide
  refine ⟨?_, ?_⟩
  · simp only [fieldLine, List.mem_append, not_or]
    exact ⟨h.name, hcolon.2, h.value⟩
  · intro hnil
    rw [fieldLine, List.append_eq_nil_iff, List.append_eq_nil_iff] at hnil
    exact hcolon.1 hnil.2.1

/-- What the reader splits or cuts is not in the words of the request line. -/
structure Word (text : List Byte) : Prop where
  noBlank : blank ∉ text
  noEnd : lineFeed ∉ text

theorem readRequest_requestText {method page : List Byte} {fields : List Field} (hmethod : Word method)
    (hpage : Word page) (hfields : ∀ f ∈ fields, Writable f) (body : List Byte) :
    readRequest (requestText method page fields body) = readBody method page fields body := by
  have hversion : Word (ascii "HTTP/1.1") := ⟨by decide, by decide⟩
  have hdistinct : lineFeed ≠ blank := by decide
  have hsplit : (method ++ blank :: (page ++ blank :: ascii "HTTP/1.1")).splitOn blank =
      [method, page, ascii "HTTP/1.1"] := by
    rw [List.splitOn_append_cons_self_of_not_mem hmethod.noBlank,
      List.splitOn_append_cons_self_of_not_mem hpage.noBlank, List.splitOn_eq_singleton hversion.noBlank]
  have hfit : Lines.Fit lineFeed (method ++ blank :: (page ++ blank :: ascii "HTTP/1.1")) := by
    refine ⟨?_, by simp⟩
    simp only [List.mem_append, List.mem_cons, not_or]
    exact ⟨hmethod.noEnd, hdistinct, hpage.noEnd, hdistinct, hversion.noEnd⟩
  have hlines : ∀ line ∈ fields.map fieldLine, Lines.Fit lineFeed line := by
    intro line hline
    obtain ⟨f, hf, rfl⟩ := List.mem_map.mp hline
    exact fit_fieldLine (hfields f hf)
  unfold readRequest requestText
  rw [Lines.head_render (List.forall_mem_cons.mpr ⟨hfit, hlines⟩)]
  simp only [hsplit, readFields_fieldLines hfields]

/-! ## What can be read -/

theorem readField_value {line : List Byte} {f : Field} (h : readField line = some f) {b : Byte} (hb : b ∈ f.2) :
    b ∈ line := by
  obtain ⟨found, hfound, rfl⟩ := Option.map_eq_some_iff.mp h
  exact (strstr_found hfound).1.subset (List.mem_of_mem_drop hb)

theorem mem_readFields {lines : List (List Byte)} {fields : List Field} (h : lines.mapM readField = some fields)
    {f : Field} (hf : f ∈ fields) : ∃ line ∈ lines, readField line = some f := by
  induction lines generalizing fields with
  | nil =>
    cases h
    cases hf
  | cons line lines ih =>
    rw [List.mapM_cons] at h
    obtain ⟨first, hfirst, h⟩ := Option.bind_eq_some_iff.mp h
    obtain ⟨others, hothers, h⟩ := Option.bind_eq_some_iff.mp h
    cases h
    rcases List.mem_cons.mp hf with rfl | hf
    · exact ⟨line, List.mem_cons_self, hfirst⟩
    · obtain ⟨line', hline', hread⟩ := ih hothers hf
      exact ⟨line', List.mem_cons_of_mem _ hline', hread⟩

/-- A page that is read is a word, and a host is on one line. -/
theorem one_line {bytes : List Byte} {r : Request} (h : readRequest bytes = some r) :
    Word r.page ∧ ∀ host ∈ r.hosts, lineFeed ∉ host := by
  unfold readRequest at h
  rcases hhead : Lines.head lineFeed [] bytes with _ | ⟨lines, rest⟩
  · rw [hhead] at h
    cases h
  · have hfit := (Lines.head_eq_some_iff.mp hhead).2
    rw [hhead] at h
    rcases lines with _ | ⟨line, lines⟩
    · cases h
    · obtain ⟨hline, hlines⟩ := List.forall_mem_cons.mp hfit
      dsimp only at h
      split at h
      case h_2 => cases h
      case h_1 method page version fields hsplit hfields =>
        have hpage : page ∈ line.splitOn blank := by
          rw [hsplit]
          simp
        unfold readBody at h
        split at h
        case h_2 => cases h
        case h_1 n hn =>
          obtain ⟨-, h⟩ := Option.ite_none_right_eq_some.mp h
          cases h
          refine ⟨⟨Lines.separator_not_mem hpage, ?_⟩, ?_⟩
          · intro hend
            exact hline.noEnd (Lines.mem_of_field hpage hend)
          · intro host hhost hend
            obtain ⟨f, hf, rfl⟩ := List.mem_map.mp hhost
            obtain ⟨fline, hfline, hread⟩ := mem_readFields hfields (List.mem_of_mem_filter hf)
            exact (hlines fline hfline).noEnd (readField_value hread hend)

/-! ## The requests of the calls -/

/-- The three formats are a text, the page, a text, the host, and what is behind it. -/
theorem printf_pageHost {before between after : List Char} (hbefore : '%' ∉ before) (hbetween : '%' ∉ between)
    (page ip : List Byte) (args : List Arg) :
    printf (before ++ '%' :: 's' :: (between ++ '%' :: 's' :: after)) (.str page :: .str ip :: args) =
      before.map byte ++ (page ++ (between.map byte ++ (ip ++ printf after args))) := by
  rw [printf_plain hbefore, printf, printf_plain hbetween, printf]

theorem getHeader_text (page ip : List Byte) :
    getHeader page ip = requestText (ascii "GET") page (commonFields ip) [] := by
  have hformat : mHeaderGet.toList = "GET ".toList ++ '%' :: 's' :: (" HTTP/1.1\nHost: ".toList ++ '%' :: 's' ::
      "\nUser-Agent: aightech\nAccept: */*\n\n".toList) := by decide
  rw [getHeader, hformat, printf_pageHost (by decide) (by decide), printf_end (by decide)]
  simp [requestText, commonFields, fieldLine, ascii, blank, lineFeed, byte]

/-- The fields of a request of `post`. -/
def postFields (ip : CStr) (p : Post) : List Field :=
  if 0 < p.size then dataFields ip.text p.size else commonFields ip.text

theorem postHeader_text (ip : CStr) (p : Post) :
    p.header ip = requestText (ascii "POST") p.page.text (postFields ip p) [] := by
  unfold Post.header header postFields
  by_cases hpos : 0 < p.size
  · have hformat : mHeaderPostWithData.toList = "POST ".toList ++ '%' :: 's' :: (" HTTP/1.1\nHost: ".toList ++
        '%' :: 's' :: ("\nUser-Agent: aightech\nAccept: */*\nContent-Length: ".toList ++ '%' :: 'd' ::
          "\nContent-Type: application/x-www-form-urlencoded\n\n".toList)) := by decide +kernel
    rw [decide_eq_true hpos, if_pos rfl, if_pos hpos, hformat, printf_pageHost (by decide) (by decide),
      printf_plain (by decide), printf, printf_end (by decide)]
    simp [requestText, dataFields, commonFields, fieldLine, ascii, blank, lineFeed, byte]
  · have hformat : mHeaderPost.toList = "POST ".toList ++ '%' :: 's' :: (" HTTP/1.1\nHost: ".toList ++ '%' :: 's' ::
        "\nUser-Agent: aightech\nAccept: */*\n\n".toList) := by decide
    rw [decide_eq_false hpos, if_neg Bool.false_ne_true, if_neg hpos, hformat,
      printf_pageHost (by decide) (by decide), printf_end (by decide)]
    simp [requestText, commonFields, fieldLine, ascii, blank, lineFeed, byte]

theorem readBody_common (method page ip : List Byte) :
    readBody method page (commonFields ip) [] = some ⟨method, page, [ip], [], []⟩ := rfl

/-- The length is that of the content. -/
theorem readBody_data (method page ip content : List Byte) :
    readBody method page (dataFields ip content.length) content = some ⟨method, page, [ip], content, []⟩ := by
  have hlength : values (ascii "Content-Length") (dataFields ip content.length) = [decimal content.length] := rfl
  have hhosts : values (ascii "Host") (dataFields ip content.length) = [ip] := rfl
  have hdigits : (decimal content.length).all isdigit = true :=
    List.all_eq_true.mpr fun b hb => isdigit_of_mem_decimal hb
  have hbody : bodyLength (dataFields ip content.length) = some content.length := by
    unfold bodyLength
    rw [hlength]
    dsimp only
    rw [if_pos ⟨decimal_ne_nil _, hdigits⟩, number_decimal]
  simp [readBody, hbody, hhosts]

theorem commonFields_writable {ip : List Byte} (h : lineFeed ∉ ip) : ∀ f ∈ commonFields ip, Writable f := by
  intro f hf
  simp only [commonFields, List.mem_cons, List.not_mem_nil, or_false] at hf
  rcases hf with rfl | rfl | rfl
  · have hname : colon ∉ ascii "Host" ∧ lineFeed ∉ ascii "Host" := by decide
    exact ⟨hname.1, hname.2, h⟩
  · exact ⟨by decide, by decide, by decide⟩
  · exact ⟨by decide, by decide, by decide⟩

theorem lineFeed_not_mem_decimal (n : Nat) : lineFeed ∉ decimal n := by
  intro h
  exact absurd (isdigit_of_mem_decimal h) (by decide)

theorem dataFields_writable {ip : List Byte} (h : lineFeed ∉ ip) (length : Nat) :
    ∀ f ∈ dataFields ip length, Writable f := by
  intro f hf
  rcases List.mem_append.mp hf with hf | hf
  · exact commonFields_writable h f hf
  · simp only [List.mem_cons, List.not_mem_nil, or_false] at hf
    rcases hf with rfl | rfl
    · have hname : colon ∉ ascii "Content-Length" ∧ lineFeed ∉ ascii "Content-Length" := by decide
      exact ⟨hname.1, hname.2, lineFeed_not_mem_decimal length⟩
    · exact ⟨by decide, by decide, by decide +kernel⟩

/-- The request of a `get`. -/
theorem read_get_iff (page ip : List Byte) :
    readRequest (getHeader page ip) = some ⟨ascii "GET", page, [ip], [], []⟩ ↔ Word page ∧ lineFeed ∉ ip := by
  constructor
  · intro h
    obtain ⟨hpage, hhosts⟩ := one_line h
    exact ⟨hpage, hhosts ip List.mem_cons_self⟩
  · rintro ⟨hpage, hip⟩
    rw [getHeader_text, readRequest_requestText ⟨by decide, by decide⟩ hpage (commonFields_writable hip),
      readBody_common]

/-- The request of a `post`, its content behind it. -/
theorem read_post_iff (ip : CStr) (p : Post) :
    readRequest (p.request ip) = some ⟨ascii "POST", p.page.text, [ip.text], p.contentText, []⟩ ↔
      Word p.page.text ∧ lineFeed ∉ ip.text := by
  constructor
  · intro h
    obtain ⟨hpage, hhosts⟩ := one_line h
    exact ⟨hpage, hhosts ip.text List.mem_cons_self⟩
  · rintro ⟨hpage, hip⟩
    have hrequest : p.request ip = requestText (ascii "POST") p.page.text (postFields ip p) p.contentText := by
      rw [Post.request, postHeader_text]
      exact Lines.render_append _ _ _ _
    have hmethod : Word (ascii "POST") := ⟨by decide, by decide⟩
    rw [hrequest]
    unfold postFields
    by_cases hpos : 0 < p.size
    · rw [if_pos hpos, readRequest_requestText hmethod hpage (dataFields_writable hip _), ← p.length_contentText]
      exact readBody_data _ _ _ _
    · rw [if_neg hpos, readRequest_requestText hmethod hpage (commonFields_writable hip), contentText_of_empty hpos]
      exact readBody_common _ _ _

/-- A call's request is read as what the call was given if and only if the page is a word and
    the host is on one line. -/
theorem request_read_iff {h : HTTP} (htcp : h.tcp.isConnected = true) (accept : List Byte → Int) (heap : Mem)
    (inbox : List Byte) (es : List Answer) :
    (∀ (page : CStr) (n : Int), 0 ≤ n → (getHeader page.text h.ip.text).length < headerSize →
      (readRequest ((h.get accept heap page n inbox es).sent.flatMap Sent.bytes) =
          some ⟨ascii "GET", page.text, [h.ip.text], [], []⟩ ↔ Word page.text ∧ lineFeed ∉ h.ip.text)) ∧
    ∀ (p : Post) (n : Int), p.Fits h.ip →
      (readRequest ((h.post accept heap p.page p.content n inbox es).sent.flatMap Sent.bytes) =
          some ⟨ascii "POST", p.page.text, [h.ip.text], p.contentText, []⟩ ↔
        Word p.page.text ∧ lineFeed ∉ h.ip.text) := by
  refine ⟨?_, ?_⟩
  · intro page n hn hfits
    rw [get_sent htcp hfits accept heap hn inbox es]
    exact read_get_iff page.text h.ip.text
  · intro p n hfits
    rw [post_sent htcp hfits accept heap n inbox es]
    exact read_post_iff h.ip p

theorem request_read_iff_on_localhost :
    (readRequest ((localhost.get (fun bs => bs.length) (fun _ => 0) page 64 [] []).sent.flatMap Sent.bytes) =
        some ⟨ascii "GET", page.text, [localhost.ip.text], [], []⟩ ↔
      Word page.text ∧ lineFeed ∉ localhost.ip.text) ∧
    (readRequest ((localhost.post (fun bs => bs.length) (fun _ => 0) page (some formContent) 64 [] []).sent.flatMap
        Sent.bytes) = some ⟨ascii "POST", page.text, [localhost.ip.text], formContent.text, []⟩ ↔
      Word page.text ∧ lineFeed ∉ localhost.ip.text) := by
  obtain ⟨hget, hpost⟩ := request_read_iff (h := localhost) rfl (fun bs => bs.length) (fun _ => 0) [] []
  refine ⟨?_, ?_⟩
  · exact hget page 64 (by decide) (by decide +kernel)
  · exact hpost ⟨page, some formContent⟩ 64 ⟨by decide +kernel, by decide⟩

/-- A page with the end of a request and the beginning of another in it. -/
def twoRequests : CStr := CStr.of (ascii "/ HTTP/1.1\nHost: other\n\nGET /b") (by decide +kernel)

/-- The server that the call has in mind is asked for another page, of another host, and has a
    second request left. -/
theorem a_page_forges_a_request :
    ∃ r, readRequest ((localhost.get (fun bs => bs.length) (fun _ => 0) twoRequests 64 [] []).sent.flatMap
        Sent.bytes) = some r ∧
      r.page = ascii "/" ∧ r.hosts = [ascii "other"] ∧ r.left = getHeader (ascii "/b") (ascii "localhost") ∧
      readRequest ((localhost.get (fun bs => bs.length) (fun _ => 0) twoRequests 64 [] []).sent.flatMap Sent.bytes) ≠
        some ⟨ascii "GET", twoRequests.text, [localhost.ip.text], [], []⟩ := by
  have hfits : (getHeader twoRequests.text localhost.ip.text).length < headerSize := by decide +kernel
  have hsent := get_sent (h := localhost) rfl hfits (fun bs => bs.length) (fun _ => 0) (n := 64) (by decide) [] []
  have hread : readRequest (getHeader twoRequests.text localhost.ip.text) =
      some ⟨ascii "GET", ascii "/", [ascii "other"], [], getHeader (ascii "/b") (ascii "localhost")⟩ := by
    decide +kernel
  rw [hsent, hread]
  refine ⟨_, rfl, rfl, rfl, rfl, ?_⟩
  intro h
  have hleft := congrArg Request.left (Option.some.inj h)
  exact absurd hleft (by decide +kernel)

end ComClient.Http
