/-
  ComClient.Http.Concurrent — one connected HTTP client used by any number of threads, with
  every interleaving of their steps.

  A step of a thread is one access to the shared members or one call of `writeS` or `readS`,
  which hold `m_mutex` from end to end. The sends are complete. `wire` is what the server has
  been sent; `called` and `written` are history.

  `post` holds no lock of its own between its steps, so another thread's call may format its
  header, or count its content, in between (`a_header_is_sent_twice`). Where a call begins
  only when no other is between its beginning and its last write, and its header fits, the
  server is sent the requests of the calls one after the other (`whole_in_turn`).
-/

import ComClient.Http.Request
import ComClient.Lts.Run

namespace ComClient.Http

open ComClient.Transport ComClient.Libc ComClient.Lts

namespace Concurrent

/-! ## The code -/

/-- Where a thread is in `post`. -/
inductive Pc where
  | idle
  /-- `m_content_length` is set. -/
  | counted (p : Post)
  | formatting (p : Post) (withData : Bool)
  | formatted (p : Post)
  /-- Before `writeS(m_header, n)`. -/
  | sendingHeader (p : Post) (n : SizeT)
  | headerSent (p : Post)
  /-- `m_content_length` was positive. -/
  | contentDue (p : Post)
  /-- Before `writeS(content, n)`. -/
  | sendingContent (p : Post) (n : Int)
  | reading (p : Post)

/-- Between the beginning and the last write. -/
def Pc.writing : Pc → Bool
  | .idle => false
  | .reading _ => false
  | _ => true

structure St (τ : Type) where
  http : HTTP
  pc : τ → Pc
  wire : List Byte
  called : List Post
  /-- The calls that have made their last write. -/
  written : List Post

inductive Act (τ : Type) where
  | call (t : τ) (p : Post)
  /-- The thread's next step. -/
  | next (t : τ)

/-- What a step of a thread changes. -/
structure Change where
  pc : Pc
  mem : Mem
  sent : List Byte
  written : List Post

/-- The whole of what it is given. -/
def accept (bytes : List Byte) : Int := bytes.length

/-- The next step of a thread inside `post`. -/
def advance (h : HTTP) : Pc → Option Change
  | .idle => none
  | .counted p => some ⟨.formatting p (decide (0 < contentLength h.mem)), h.mem, [], []⟩
  | .formatting p withData => some ⟨.formatted p, formatHeader withData p.page h.ip h.mem, [], []⟩
  | .formatted p => (strlen h.mem headerBound).map fun n : Nat => ⟨.sendingHeader p (toSizeT n), h.mem, [], []⟩
  | .sendingHeader p n =>
    some ⟨.headerSent p, h.mem, (TCP.writeS h.tcp accept h.mem n false).sent.toList.flatMap Sent.bytes, []⟩
  | .headerSent p =>
    if 0 < contentLength h.mem then some ⟨.contentDue p, h.mem, [], []⟩
    else some ⟨.reading p, h.mem, [], [p]⟩
  | .contentDue p => some ⟨.sendingContent p (contentLength h.mem), h.mem, [], []⟩
  | .sendingContent p n =>
    some ⟨.reading p, h.mem, (writeContent h.tcp accept p.content n).flatMap Sent.bytes, [p]⟩
  | .reading _ => some ⟨.idle, h.mem, [], []⟩

variable {τ : Type} [DecidableEq τ]

def start (h : HTTP) : St τ := ⟨h, fun _ => .idle, [], [], []⟩

def step (s : St τ) : Act τ → Option (St τ)
  | .call t p =>
    match s.pc t with
    | .idle =>
      some { s with
        http := { s.http with mem := countContent p.content s.http.mem }
        pc := Function.update s.pc t (.counted p)
        called := s.called ++ [p] }
    | _ => none
  | .next t =>
    (advance s.http (s.pc t)).map fun c : Change =>
      { s with
        http := { s.http with mem := c.mem }
        pc := Function.update s.pc t c.pc
        wire := s.wire ++ c.sent
        written := s.written ++ c.written }

/-! ## Calls in turn -/

/-- A call begins when no other is writing; its header fits, and the length of its content
    is an `int`. -/
def InTurn (s : St τ) : Act τ → Prop
  | .call _ p => (∀ u, (s.pc u).writing = false) ∧ p.Fits s.http.ip
  | .next _ => True

/-- The server has been sent the requests of the calls one after the other, the last one
    perhaps in part. -/
def Whole (s : St τ) : Prop :=
  ∃ part, s.wire = s.written.flatMap (Post.request s.http.ip) ++ part ∧
    (part = [] ∧ s.called = s.written ∨ ∃ p, part <+: p.request s.http.ip ∧ s.called = s.written ++ [p])

/-- Where a call is that is writing: what it has left in the members, and sent of its request. -/
inductive Stage (ip : CStr) (p : Post) (m : Mem) : Pc → List Byte → Prop where
  | counted (h : contentLength m = p.size) : Stage ip p m (.counted p) []
  | formatting (h : contentLength m = p.size) : Stage ip p m (.formatting p (decide (0 < p.size))) []
  | formatted (h : Formatted ip p m) : Stage ip p m (.formatted p) []
  | sendingHeader (h : Formatted ip p m) : Stage ip p m (.sendingHeader p (toSizeT (p.header ip).length)) []
  | headerSent (h : contentLength m = p.size) : Stage ip p m (.headerSent p) (p.header ip)
  | contentDue (h : contentLength m = p.size) (hpos : 0 < p.size) : Stage ip p m (.contentDue p) (p.header ip)
  | sendingContent (hpos : 0 < p.size) : Stage ip p m (.sendingContent p p.size) (p.header ip)

theorem stage_part {ip : CStr} {p : Post} {m : Mem} {pc : Pc} {sent : List Byte} (h : Stage ip p m pc sent) :
    sent <+: p.request ip := by
  cases h with
  | counted | formatting | formatted | sendingHeader => exact List.nil_prefix
  | headerSent | contentDue | sendingContent => exact List.prefix_append _ _

/-- A step of a call that is writing: it sends the next part of the request, or the rest. -/
theorem stage_advance {h : HTTP} (htcp : h.tcp.isConnected = true) {p : Post} (hp : p.Fits h.ip) {pc : Pc}
    {sent : List Byte} (hs : Stage h.ip p h.mem pc sent) {c : Change} (hc : advance h pc = some c) :
    c.written = [] ∧ Stage h.ip p c.mem c.pc (sent ++ c.sent) ∨
      c.written = [p] ∧ c.pc.writing = false ∧ sent ++ c.sent = p.request h.ip := by
  cases hs with
  | counted hlength =>
    cases hc
    have hdecide : decide (0 < contentLength h.mem) = decide (0 < p.size) := by
      rw [hlength]
      exact decide_eq_decide.mpr Int.natCast_pos
    rw [hdecide]
    exact Or.inl ⟨rfl, .formatting hlength⟩
  | formatting hlength =>
    cases hc
    exact Or.inl ⟨rfl, .formatted (Http.formatted hp hlength)⟩
  | formatted hformatted =>
    simp only [advance, hformatted.strlen, Option.map_some, Option.some.injEq] at hc
    subst hc
    exact Or.inl ⟨rfl, .sendingHeader hformatted⟩
  | sendingHeader hformatted =>
    simp only [advance, writeHeader_sent htcp hp hformatted, Option.toList_some, List.flatMap_singleton,
      Option.some.injEq] at hc
    subst hc
    exact Or.inl ⟨rfl, .headerSent hformatted.length⟩
  | headerSent hlength =>
    rw [advance, hlength] at hc
    by_cases hpos : 0 < p.size
    · rw [if_pos (Int.natCast_pos.mpr hpos)] at hc
      cases hc
      rw [List.append_nil]
      exact Or.inl ⟨rfl, .contentDue hlength hpos⟩
    · rw [if_neg (by omega)] at hc
      cases hc
      exact Or.inr ⟨rfl, rfl, by rw [Post.request, contentText_of_empty hpos]⟩
  | contentDue hlength hpos =>
    cases hc
    rw [List.append_nil, hlength]
    exact Or.inl ⟨rfl, .sendingContent hpos⟩
  | sendingContent hpos =>
    simp only [advance, writeContent_sent htcp hp hpos, List.flatMap_singleton, Option.some.injEq] at hc
    subst hc
    exact Or.inr ⟨rfl, rfl, rfl⟩

/-- Nobody is writing. -/
structure Quiet (s : St τ) : Prop where
  pc : ∀ t, (s.pc t).writing = false
  wire : s.wire = s.written.flatMap (Post.request s.http.ip)
  called : s.called = s.written

/-- `t` is writing, and nobody else. -/
structure Busy (s : St τ) (t : τ) (p : Post) (sent : List Byte) : Prop where
  others : ∀ u, u ≠ t → (s.pc u).writing = false
  fits : p.Fits s.http.ip
  stage : Stage s.http.ip p s.http.mem (s.pc t) sent
  wire : s.wire = s.written.flatMap (Post.request s.http.ip) ++ sent
  called : s.called = s.written ++ [p]

structure Inv (s : St τ) : Prop where
  connected : s.http.tcp.isConnected = true
  turn : Quiet s ∨ ∃ t p sent, Busy s t p sent

variable {s s' : St τ}

/-- A thread that is not writing can only go on from its read. -/
theorem advance_reading {h : HTTP} {pc : Pc} (hpc : pc.writing = false) {c : Change} (hc : advance h pc = some c) :
    c = ⟨.idle, h.mem, [], []⟩ := by
  cases pc with
  | idle => cases hc
  | reading p =>
    cases hc
    rfl
  | _ => cases hpc

/-- A step of a thread that is not writing. -/
theorem quiet_update {u : τ} (hs : Quiet s) :
    Quiet { s with pc := Function.update s.pc u .idle } := by
  refine ⟨?_, hs.wire, hs.called⟩
  intro t
  rcases eq_or_ne t u with rfl | htu
  · simp [Pc.writing]
  · simpa [htu] using hs.pc t

theorem busy_update {t u : τ} {p : Post} {sent : List Byte} (hut : u ≠ t) (hs : Busy s t p sent) :
    Busy { s with pc := Function.update s.pc u .idle } t p sent := by
  refine ⟨?_, hs.fits, ?_, hs.wire, hs.called⟩
  · intro v hv
    rcases eq_or_ne v u with rfl | hvu
    · simp [Pc.writing]
    · simpa [hvu] using hs.others v hv
  · simpa [Function.update_of_ne (Ne.symm hut)] using hs.stage

/-- A call begins. -/
theorem busy_call {t : τ} {p : Post} (hs : Inv s) (hnobody : ∀ u, (s.pc u).writing = false) (hfits : p.Fits s.http.ip) :
    Busy { s with
      http := { s.http with mem := countContent p.content s.http.mem }
      pc := Function.update s.pc t (.counted p)
      called := s.called ++ [p] } t p [] := by
  have hquiet : Quiet s := by
    rcases hs.turn with hquiet | ⟨u, q, sent, hbusy⟩
    · exact hquiet
    · have hnot := hnobody u
      have hstage := hbusy.stage
      cases hu : s.pc u <;> rw [hu] at hnot hstage <;> cases hnot <;> cases hstage
  refine ⟨?_, hfits, ?_, ?_, ?_⟩
  · intro u hu
    simpa [hu] using hnobody u
  · dsimp only
    rw [Function.update_self]
    exact .counted (contentLength_countContent hfits.size s.http.mem)
  · rw [List.append_nil]
    exact hquiet.wire
  · rw [hquiet.called]

theorem step_inv {a : Act τ} (hs : Inv s) (hok : InTurn s a) (h : step s a = some s') : Inv s' := by
  cases a with
  | call t p =>
    simp only [step] at h
    split at h
    · cases h
      obtain ⟨hnobody, hfits⟩ := hok
      exact ⟨hs.connected, Or.inr ⟨t, p, [], busy_call hs hnobody hfits⟩⟩
    · cases h
  | next u =>
    obtain ⟨c, hc, rfl⟩ := Option.map_eq_some_iff.mp h
    refine ⟨hs.connected, ?_⟩
    rcases hs.turn with hquiet | ⟨t, p, sent, hbusy⟩
    · have hread := advance_reading (hquiet.pc u) hc
      subst hread
      left
      simpa using quiet_update (u := u) hquiet
    · rcases eq_or_ne u t with rfl | hut
      · rcases stage_advance hs.connected hbusy.fits hbusy.stage hc with ⟨hwritten, hstage⟩ | ⟨hwritten, hpc, hsent⟩
        · right
          refine ⟨u, p, sent ++ c.sent, ?_, hbusy.fits, ?_, ?_, ?_⟩
          · intro v hv
            simpa [hv] using hbusy.others v hv
          · simpa using hstage
          · simp [hwritten, hbusy.wire]
          · simp [hwritten, hbusy.called]
        · left
          refine ⟨?_, ?_, ?_⟩
          · intro v
            rcases eq_or_ne v u with rfl | hv
            · simpa using hpc
            · simpa [hv] using hbusy.others v hv
          · simp [hwritten, hbusy.wire, hsent]
          · simp [hwritten, hbusy.called]
      · have hread := advance_reading (hbusy.others u hut) hc
        subst hread
        right
        exact ⟨t, p, sent, by simpa using busy_update hut hbusy⟩

theorem whole_of_inv {σ : Type} {s : St σ} (hs : Inv s) : Whole s := by
  rcases hs.turn with hquiet | ⟨t, p, sent, hbusy⟩
  · refine ⟨[], ?_, Or.inl ⟨rfl, hquiet.called⟩⟩
    rw [List.append_nil]
    exact hquiet.wire
  · exact ⟨sent, hbusy.wire, Or.inr ⟨p, stage_part hbusy.stage, hbusy.called⟩⟩

/-- For any threads and any calls of theirs that begin in turn, whatever else their steps do. -/
theorem whole_in_turn {h : HTTP} (htcp : h.tcp.isConnected = true) {as : List (Act τ)}
    (hok : Meets step InTurn (start h) as) (hrun : run step (start h) as = some s) : Whole s := by
  have h0 : Inv (start h : St τ) := ⟨htcp, Or.inl ⟨fun _ => rfl, rfl, rfl⟩⟩
  exact whole_of_inv (run_invariant_of_meets (fun _ _ _ => step_inv) h0 hok hrun)

/-! ## Two threads -/

/-- A call with content, and one without. -/
def withContent : Post := ⟨CStr.of (ascii "/a") (by decide), some (CStr.of (ascii "x=1") (by decide))⟩

def withoutContent : Post := ⟨CStr.of (ascii "/long") (by decide), none⟩

/-- All the steps of a call, up to its last write. -/
def oneAfterTheOther : List (Act Bool) :=
  [.call true withContent, .next true, .next true, .next true, .next true, .next true, .next true, .next true,
    .call false withoutContent, .next false, .next false, .next false, .next true, .next false, .next false, .next false]

instance (s : St Bool) (a : Act Bool) : Decidable (InTurn s a) :=
  match a with
  | .call _ p => decidable_of_iff ((∀ u, (s.pc u).writing = false) ∧ (p.header s.http.ip).length < headerSize ∧
      p.size < 2 ^ 31) (and_congr_right fun _ => ⟨fun h => ⟨h.1, h.2⟩, fun h => ⟨h.header, h.size⟩⟩)
  | .next _ => isTrue trivial

theorem whole_one_after_the_other : ∃ s, run step (start localhost) oneAfterTheOther = some s ∧ Whole s := by
  have hsome : (run step (start localhost) oneAfterTheOther).isSome = true := by decide +kernel
  have hok : Meets step InTurn (start localhost) oneAfterTheOther := by decide +kernel
  obtain ⟨s, hs⟩ := Option.isSome_iff_exists.mp hsome
  exact ⟨s, hs, whole_in_turn rfl hok hs⟩

/-- Both format their headers before either is sent. -/
def bothFormat : List (Act Bool) :=
  [.call true withContent, .next true, .next true, .call false withoutContent, .next false, .next false, .next true,
    .next true, .next true, .next false, .next false, .next false, .next true, .next false]

/-- The server is sent the second header twice, and no content: in no order the two requests. -/
theorem a_header_is_sent_twice :
    ∃ s, run step (start localhost) bothFormat = some s ∧ (∀ t, (s.pc t).writing = false) ∧
      s.wire = withoutContent.request localhost.ip ++ withoutContent.request localhost.ip ∧
      ∀ order : List Post, order.Perm s.called → s.wire ≠ order.flatMap (Post.request s.http.ip) := by
  have hany : (run step (start localhost) bothFormat).any (fun s => decide ((∀ t, (s.pc t).writing = false) ∧
      s.wire = withoutContent.request localhost.ip ++ withoutContent.request localhost.ip ∧
      s.wire.length ≠ (s.called.flatMap (Post.request s.http.ip)).length)) = true := by decide +kernel
  obtain ⟨s, hs, hcheck⟩ := (Option.any_eq_true _ _).mp hany
  obtain ⟨hpc, hwire, hlength⟩ := of_decide_eq_true hcheck
  refine ⟨s, hs, hpc, hwire, ?_⟩
  intro order horder heq
  have hperm := (horder.flatMap_right (Post.request s.http.ip)).length_eq
  exact hlength (by rw [heq, hperm])

end Concurrent

end ComClient.Http
