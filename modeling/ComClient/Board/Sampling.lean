/-
  ComClient.Board.Sampling — the two programs of the repository at the ends of a serial line:
  the loop of `main` over a connected `Serial` (`src/src/main.cpp`) and the sketch
  (`src/src/arduino/arduino.ino`).

  `main` writes one byte and reads 32, over and over. The sketch says 0x40, waits for
  0xbb, and then answers each byte with a scan of 8 times 8 samples of two bytes. Each call of
  `read` in `Serial::readS` is a step of its own, and so is each test and each
  `Serial.read()` of the sketch; bytes to the sketch may get lost, and others may arrive
  (`noise`). Whether a `char` is signed depends on the board's compiler.

  - `never_connects`: `main` never says 0xbb, so it prints no row, however often it reads;
    with a signed `char` the sketch does not hear it, either, whoever says it.
  - `falls_behind`: past the setup every row is a quarter of a scan, four rows to a scan,
    but `main` asks for a scan with each. What is asked for and not printed grows by
    96 bytes a row.
-/

import ComClient.Lts.Run
import ComClient.Transport.ReadLoop

namespace ComClient.Board

open ComClient.Lts ComClient.Transport

/-- Where the loop of `main` stands; in `readS` with its running total `n`. -/
inductive HostPc where
  | write
  | reading (n : Int)
  | undefined
  deriving DecidableEq, Repr

inductive BoardPc where
  /-- `Serial.write(0x40);` -/
  | greet
  /-- `while (c != 0xbb)` -/
  | check
  /-- `c = Serial.read();` -/
  | read
  | loop
  deriving DecidableEq, Repr

structure Line where
  host : HostPc
  buff : Mem
  /-- The bytes of the rows that `main` has printed. -/
  rows : List (List Byte)
  sent : Nat
  board : BoardPc
  c : Byte
  /-- What has arrived at the sketch, and what is on its way to `main`. -/
  rx : List Byte
  tx : List Byte
  scans : List (List Byte)

inductive Act where
  /-- `device->writeS(buff, 1)`; the byte arrives, or not. -/
  | write (arrives : Bool)
  /-- A call of `read` in `device->readS(buff, 32, false)`. -/
  | read (a : Answer)
  | noise (b : Byte)
  /-- A step of `setup()`. -/
  | setup
  /-- A pass of `loop()` that finds a byte; `analog a i` is `analogRead(i)` in pass `a`. -/
  | scan (analog : Nat → Nat → BitVec 16)

/-- The value of a `char` as an `int`. -/
def charValue (signed : Bool) (c : Byte) : Int := if signed then c.toInt else c.toNat

/-- `(uint8_t *)vals` -/
def scanBytes (analog : Nat → Nat → BitVec 16) : List Byte :=
  (List.range 8).flatMap fun a => (List.range 8).flatMap fun i =>
    [(analog a i).setWidth 8, (analog a i >>> 8).setWidth 8]

/-- `int tot = 32;` -/
def tot : SizeT := toSizeT 32

namespace Line

/-- One call of the loop of `readS`, and the row that follows the last. -/
def hostRead (s : Line) (n : Int) (a : Answer) : Line :=
  let r := stream.answer s.tx a (tot - toSizeT n).val
  let buff := store s.buff n r.1.bytes
  if fitsSsize (n + r.1.ret) then
    if toSizeT (n + r.1.ret) = tot then
      { s with host := .write, buff := buff, tx := r.2, rows := s.rows ++ [load buff 0 32] }
    else { s with host := .reading (n + r.1.ret), buff := buff, tx := r.2 }
  else { s with host := .undefined, buff := buff, tx := r.2 }

def step (signed : Bool) (s : Line) : Act → Option Line
  | .write arrives =>
    if s.host = .write then
      some { s with
        host := .reading 0
        buff := store s.buff 0 (49 :: List.replicate 23 0)
        sent := s.sent + 1
        rx := if arrives then s.rx ++ [49] else s.rx }
    else none
  | .read a =>
    match s.host with
    | .reading n => some (s.hostRead n a)
    | _ => none
  | .noise b => some { s with rx := s.rx ++ [b] }
  | .setup =>
    match s.board with
    | .greet => some { s with tx := s.tx ++ [0x40], board := .check }
    | .check => some { s with board := if charValue signed s.c ≠ 0xbb then .read else .loop }
    -- `Serial.read()` returns -1 when nothing has arrived.
    | .read => some { s with c := s.rx.head?.getD 255, rx := s.rx.tail, board := .check }
    | .loop => none
  | .scan analog =>
    if s.board = .loop ∧ s.rx ≠ [] then
      some { s with rx := s.rx.tail, scans := s.scans ++ [scanBytes analog], tx := s.tx ++ scanBytes analog }
    else none

/-- Both have just been started; `c` is not initialised. -/
structure Reset (s : Line) : Prop where
  host : s.host = .write
  rows : s.rows = []
  sent : s.sent = 0
  board : s.board = .greet
  rx : s.rx = []
  tx : s.tx = []
  scans : s.scans = []

/-- `main` starts, and the sketch is in `loop()`. -/
structure Ready (s : Line) : Prop where
  host : s.host = .write
  rows : s.rows = []
  sent : s.sent = 0
  board : s.board = .loop
  rx : s.rx = []
  tx : s.tx = []
  scans : s.scans = []

variable {signed : Bool} {s t : Line} {as : List Act}

/-! ## The reads of `main` -/

/-- What a call takes from the line. -/
theorem answer_taken (tx : List Byte) (a : Answer) (len : Nat) :
    tx = (stream.answer tx a len).1.bytes ++ (stream.answer tx a len).2 := by
  cases a with
  | upto k => exact (List.take_append_drop _ _).symm
  | error => rfl

/-- A read that has come to `n`, and the calls that follow. -/
theorem reads_are_calls (fd : Int) {n : Int} (hpc : s.host = .reading n) {es : List Answer} (hne : es ≠ [])
    (hrun : run (step signed) s (es.map .read) = some t) :
    (callsFrom stream fd tot true n s.buff s.tx es).buf = t.buff ∧
      (callsFrom stream fd tot true n s.buff s.tx es).kernel = t.tx ∧
      (t.host = .write → (∃ m, (callsFrom stream fd tot true n s.buff s.tx es).status = .returned m) ∧
        t.rows = s.rows ++ [load t.buff 0 32]) ∧
      ∀ m, t.host = .reading m → (callsFrom stream fd tot true n s.buff s.tx es).status = .blocked ∧ t.rows = s.rows := by
  induction es generalizing s n with
  | nil => exact absurd rfl hne
  | cons a es ih =>
    obtain ⟨u, hu, hrun⟩ := run_cons.mp hrun
    have hread : s.hostRead n a = u := by
      simp only [step, hpc] at hu
      exact Option.some.inj hu
    -- a read that has ended makes no more calls
    have hlast : (∀ m, u.host ≠ .reading m) → es = [] := by
      intro hno
      cases es with
      | nil => rfl
      | cons b es =>
        obtain ⟨v, hv, -⟩ := run_cons.mp hrun
        cases hhost : u.host with
        | reading m => exact absurd hhost (hno m)
        | write => simp [step, hhost] at hv
        | undefined => simp [step, hhost] at hv
    unfold hostRead at hread
    simp only [callsFrom]
    by_cases hfit : fitsSsize (n + (stream.answer s.tx a (tot - toSizeT n).val).1.ret) = true
    · by_cases hdone : toSizeT (n + (stream.answer s.tx a (tot - toSizeT n).val).1.ret) = tot
      · simp only [hfit, hdone, if_true] at hread
        subst hread
        obtain rfl := hlast (by simp)
        cases hrun
        simp [hfit, hdone]
      · simp only [hfit, hdone, if_true, if_false] at hread
        subst hread
        simp only [hfit, hdone, if_true, ne_eq, not_false_eq_true, and_self]
        cases es with
        | nil =>
          cases hrun
          simp [callsFrom, Run.after]
        | cons b es => exact ih rfl (List.cons_ne_nil b es) hrun
    · simp only [hfit] at hread
      subst hread
      obtain rfl := hlast (by simp)
      cases hrun
      simp [hfit]

/-- The calls of `read` are those of `Serial::readS` over what the line holds: when a row is
    printed it has returned, and while `main` is in it, it has not. -/
theorem reads_are_readS {c : Client} (hc : c.isConnected = true) (hpc : s.host = .reading 0) {es : List Answer}
    (hne : es ≠ []) (hrun : run (step signed) s (es.map .read) = some t) :
    (Serial.readS c s.buff tot false true s.tx es).buf = t.buff ∧
      (Serial.readS c s.buff tot false true s.tx es).kernel = t.tx ∧
      (t.host = .write → (∃ n, (Serial.readS c s.buff tot false true s.tx es).status = .returned n) ∧
        t.rows = s.rows ++ [load t.buff 0 32]) ∧
      ∀ m, t.host = .reading m →
        (∀ n, (Serial.readS c s.buff tot false true s.tx es).status ≠ .returned n) ∧ t.rows = s.rows := by
  obtain ⟨hbuf, hkernel, hwrite, hreading⟩ := reads_are_calls c.fd hpc hne hrun
  rw [← readCalls_eq] at hbuf hkernel hwrite hreading
  rw [Serial.readS, if_pos hc, readBody_buf, readBody_kernel]
  refine ⟨hbuf, hkernel, ?_, ?_⟩
  · intro h
    obtain ⟨⟨n, hn⟩, hrows⟩ := hwrite h
    exact ⟨⟨_, readBody_returned.mpr ⟨n, hn, rfl⟩⟩, hrows⟩
  · intro m h
    obtain ⟨hblocked, hrows⟩ := hreading m h
    refine ⟨?_, hrows⟩
    intro n hn
    obtain ⟨k, hk, -⟩ := readBody_returned.mp hn
    cases hblocked.symm.trans hk

/-! ## The setup -/

/-- The bytes that `main` has, or may have. -/
def got : HostPc → Int
  | .reading n => n
  | _ => 0

/-- The bytes that the sketch has sent in `setup()`. -/
def said : BoardPc → Nat
  | .greet => 0
  | _ => 1

/-- The sketch waits, and `main` for 31 bytes at least. -/
structure Waiting (signed : Bool) (s : Line) : Prop where
  board : s.board ≠ .loop
  c : charValue signed s.c ≠ 0xbb
  rx : signed = true ∨ 0xbb ∉ s.rx
  rows : s.rows = []
  scans : s.scans = []
  tx : s.tx.length ≤ said s.board
  got : s.tx.length + got s.host ≤ said s.board
  low : -2 ^ 63 ≤ Line.got s.host
  sent : s.sent ≤ if s.host = .write then 0 else 1

theorem charValue_signed (c : Byte) : charValue true c ≠ 0xbb := by
  have hlt : 2 * c.toInt < 2 ^ 8 := BitVec.two_mul_toInt_lt
  unfold charValue
  rw [if_pos rfl]
  omega

theorem charValue_ne {c : Byte} (h : signed = true ∨ c ≠ 0xbb) : charValue signed c ≠ 0xbb := by
  cases signed with
  | true => exact charValue_signed c
  | false =>
    have hne : c ≠ 0xbb := h.resolve_left Bool.false_ne_true
    intro heq
    refine hne (BitVec.eq_of_toNat_eq ?_)
    have hnat : (c.toNat : Int) = 0xbb := heq
    show c.toNat = 187
    omega

theorem waiting_read {n : Int} (h : Waiting signed s) (hpc : s.host = .reading n) (a : Answer) :
    Waiting signed (s.hostRead n a) := by
  have htaken := congrArg List.length (answer_taken s.tx a (tot - toSizeT n).val)
  rw [List.length_append] at htaken
  have hgot := h.got
  have hlow := h.low
  have htx := h.tx
  have hsaid : said s.board ≤ 1 := by cases s.board <;> simp [said]
  have htot : (tot.val : Int) = 32 := by decide
  have hsent := h.sent
  rw [hpc] at hgot hlow hsent
  simp only [Line.got] at hgot hlow
  rw [if_neg (by simp)] at hsent
  have hret : (stream.answer s.tx a (tot - toSizeT n).val).1.ret ≤
      (stream.answer s.tx a (tot - toSizeT n).val).1.bytes.length := by
    cases a with
    | upto k => exact Int.le_refl _
    | error => exact (by decide : (-1 : Int) ≤ 0)
  unfold hostRead
  dsimp only
  by_cases hfit : fitsSsize (n + (stream.answer s.tx a (tot - toSizeT n).val).1.ret) = true
  · have hrange := fitsSsize_iff.mp hfit
    have hmore : toSizeT (n + (stream.answer s.tx a (tot - toSizeT n).val).1.ret) ≠ tot :=
      toSizeT_ne_of_lt (by omega) (by omega)
    rw [if_pos hfit, if_neg hmore]
    refine ⟨h.board, h.c, h.rx, h.rows, h.scans, ?_, ?_, hrange.1, ?_⟩
    · show (stream.answer s.tx a (tot - toSizeT n).val).2.length ≤ said s.board
      omega
    · show ((stream.answer s.tx a (tot - toSizeT n).val).2.length : Int) + (n + _) ≤ said s.board
      omega
    · exact hsent
  · rw [if_neg hfit]
    refine ⟨h.board, h.c, h.rx, h.rows, h.scans, ?_, ?_, ?_, ?_⟩
    · show (stream.answer s.tx a (tot - toSizeT n).val).2.length ≤ said s.board
      omega
    · show ((stream.answer s.tx a (tot - toSizeT n).val).2.length : Int) + 0 ≤ said s.board
      omega
    · exact (by decide : (-2 ^ 63 : Int) ≤ 0)
    · exact hsent

/-- With an unsigned `char` nobody says 0xbb. -/
def Unheard (signed : Bool) (a : Act) : Prop := signed = true ∨ a ≠ .noise 0xbb

theorem waiting_step {a : Act} (h : Waiting signed s) (ha : Unheard signed a) (hs : s.step signed a = some t) :
    Waiting signed t := by
  cases a with
  | write arrives =>
    obtain ⟨hpc, hs⟩ := Option.ite_none_right_eq_some.mp hs
    cases hs
    have hgot := h.got
    have hsent := h.sent
    rw [hpc] at hgot
    rw [hpc, if_pos rfl] at hsent
    refine ⟨h.board, h.c, ?_, h.rows, h.scans, h.tx, hgot, (by decide : (-2 ^ 63 : Int) ≤ 0), ?_⟩
    · refine h.rx.imp_right ?_
      intro hnot
      cases arrives with
      | true => simpa using hnot
      | false => exact hnot
    · show s.sent + 1 ≤ _
      rw [if_neg (by simp)]
      omega
  | read a =>
    cases hpc : s.host with
    | reading n =>
      simp only [step, hpc, Option.some.injEq] at hs
      subst hs
      exact waiting_read h hpc a
    | write => simp [step, hpc] at hs
    | undefined => simp [step, hpc] at hs
  | noise b =>
    cases hs
    refine ⟨h.board, h.c, ?_, h.rows, h.scans, h.tx, h.got, h.low, h.sent⟩
    rcases ha with hsigned | hne
    · exact Or.inl hsigned
    · refine h.rx.imp_right ?_
      intro hnot hmem
      rcases List.mem_append.mp hmem with hold | hnew
      · exact hnot hold
      · exact hne (congrArg Act.noise (List.mem_singleton.mp hnew).symm)
  | setup =>
    have htx := h.tx
    have hgot := h.got
    cases hboard : s.board with
    | greet =>
      simp only [step, hboard, Option.some.injEq] at hs
      subst hs
      rw [hboard] at htx hgot
      refine ⟨by simp, h.c, h.rx, h.rows, h.scans, ?_, ?_, h.low, h.sent⟩
      · simpa [said] using htx
      · simp only [List.length_append, List.length_singleton, said] at hgot ⊢
        omega
    | check =>
      simp only [step, hboard, Option.some.injEq] at hs
      rw [if_pos h.c] at hs
      subst hs
      rw [hboard] at htx hgot
      exact ⟨by simp, h.c, h.rx, h.rows, h.scans, htx, hgot, h.low, h.sent⟩
    | read =>
      simp only [step, hboard, Option.some.injEq] at hs
      subst hs
      rw [hboard] at htx hgot
      refine ⟨by simp, charValue_ne ?_, ?_, h.rows, h.scans, htx, hgot, h.low, h.sent⟩
      · refine h.rx.imp_right ?_
        intro hnot heq
        cases hrx : s.rx with
        | nil => rw [hrx] at heq; cases heq
        | cons b rest =>
          rw [hrx] at heq hnot
          exact hnot (heq ▸ List.mem_cons_self)
      · exact h.rx.imp_right fun hnot hmem => hnot (List.mem_of_mem_tail hmem)
    | loop => exact absurd hboard h.board
  | scan analog =>
    obtain ⟨hboard, -⟩ := Option.ite_none_right_eq_some.mp hs
    exact absurd hboard.1 h.board

/-- In every run of `main` and the sketch from their starts, whatever gets lost, fails, or times
    out, unless an unsigned `char` is 0xbb by chance or by noise: `main` prints no row, has
    sent one byte at most, and the sketch neither leaves its setup nor makes a scan. -/
theorem never_connects (h0 : Reset s) (hc : signed = true ∨ s.c ≠ 0xbb) (hunheard : ∀ a ∈ as, Unheard signed a)
    (hrun : run (step signed) s as = some t) : t.rows = [] ∧ t.sent ≤ 1 ∧ t.board ≠ .loop ∧ t.scans = [] := by
  have hwaiting : Waiting signed s := by
    refine ⟨?_, charValue_ne hc, Or.inr ?_, h0.rows, h0.scans, ?_, ?_, ?_, ?_⟩
    · simp [h0.board]
    · simp [h0.rx]
    · simp [h0.tx]
    · simp [h0.tx, h0.host, h0.board, Line.got, said]
    · simp [h0.host, Line.got]
    · simp [h0.sent]
  have hinv := run_invariant_of_meets (fun _ _ _ => waiting_step) hwaiting (meets_of_forall hunheard) hrun
  refine ⟨hinv.rows, hinv.sent.trans ?_, hinv.board, hinv.scans⟩
  split
  · exact Nat.zero_le 1
  · exact Nat.le_refl 1

/-- Both are started, the sketch comes to its second `Serial.read()`, and `main` times out. -/
def started : Line := ⟨.write, fun _ => 0, [], 0, .greet, 0, [], [], []⟩

def greeted : List Act :=
  [.setup, .write true, .read (.upto 32), .setup, .setup, .setup, .setup, .read (.upto 32), .read .error]

theorem never_connects_after_the_greeting :
    ∃ t, run (step false) started greeted = some t ∧ t.host = .reading 0 ∧
      t.rows = [] ∧ t.sent ≤ 1 ∧ t.board ≠ .loop ∧ t.scans = [] := by
  have hrun : (run (step false) started greeted).map (·.host) = some (.reading 0) := by decide +kernel
  obtain ⟨t, ht, hhost⟩ := Option.map_eq_some_iff.mp hrun
  have hunheard : ∀ a ∈ greeted, Unheard false a := by
    intro a ha
    simp only [greeted, List.mem_cons, List.not_mem_nil, or_false] at ha
    rcases ha with rfl | rfl | rfl | rfl | rfl | rfl | rfl | rfl | rfl <;> exact Or.inr (by simp)
  have hreset : Reset started := ⟨rfl, rfl, rfl, rfl, rfl, rfl, rfl⟩
  exact ⟨t, ht, hhost, never_connects hreset (Or.inr (by decide)) hunheard ht⟩

/-! ## The loop -/

/-- Nothing gets lost, and no other bytes come. -/
def Clean : Act → Prop
  | .write arrives => arrives = true
  | .read a => a ≠ .error
  | .noise _ => False
  | .setup => True
  | .scan _ => True

/-- What has been asked for is printed, on its way, or waits at the sketch. -/
structure Asked (s : Line) : Prop where
  board : s.board = .loop
  host : s.host ≠ .undefined
  got : 0 ≤ got s.host ∧ got s.host < 32
  scans : ∀ x ∈ s.scans, x.length = 128
  rows : ∀ x ∈ s.rows, x.length = 32
  bytes : s.rows.flatten ++ load s.buff 0 (Line.got s.host).toNat ++ s.tx = s.scans.flatten
  requests : s.scans.length + s.rx.length = s.rows.length + if s.host = .write then 0 else 1

theorem length_scanBytes (analog : Nat → Nat → BitVec 16) : (scanBytes analog).length = 128 := by
  simp [scanBytes, List.length_flatMap]

/-- A reply that grows by a piece. -/
theorem load_grown (m : Mem) {n : Int} (h0 : 0 ≤ n) (bytes : List Byte) :
    load (store m n bytes) 0 (n + bytes.length).toNat = load m 0 n.toNat ++ bytes := by
  have hn : (n.toNat : Int) = n := Int.toNat_of_nonneg h0
  rw [show (n + bytes.length).toNat = n.toNat + bytes.length by omega, load_add, Int.zero_add, hn, load_store_same,
    load_store_out _ _ _ (by omega)]

theorem asked_read {n : Int} (h : Asked s) (hpc : s.host = .reading n) {a : Answer} (ha : a ≠ .error) :
    Asked (s.hostRead n a) := by
  obtain ⟨k, rfl⟩ : ∃ k, a = .upto k := by
    cases a with
    | upto k => exact ⟨k, rfl⟩
    | error => exact absurd rfl ha
  have hgot := h.got
  have hbytes := h.bytes
  have hrequests := h.requests
  rw [hpc] at hgot hbytes hrequests
  simp only [Line.got] at hgot hbytes
  rw [if_neg (by simp)] at hrequests
  have hroom := room tot n
  have htot : (tot.val : Int) = 32 := by decide
  have htaken := answer_taken s.tx (.upto k) (tot - toSizeT n).val
  have hlen := stream.within s.tx (.upto k) (tot - toSizeT n).val
  have hret : (stream.answer s.tx (.upto k) (tot - toSizeT n).val).1.ret =
    (stream.answer s.tx (.upto k) (tot - toSizeT n).val).1.bytes.length := rfl
  obtain ⟨r, hr⟩ : ∃ r, r = stream.answer s.tx (.upto k) (tot - toSizeT n).val := ⟨_, rfl⟩
  rw [← hr] at htaken hlen hret
  have hfit : fitsSsize (n + r.1.ret) = true := fitsSsize_iff.mpr ⟨by omega, by omega⟩
  have hall : s.rows.flatten ++ load (store s.buff n r.1.bytes) 0 (n + r.1.ret).toNat ++ r.2 = s.scans.flatten := by
    rw [hret, load_grown _ hgot.1, ← hbytes]
    conv => rhs; rw [htaken]
    simp only [List.append_assoc]
  unfold hostRead
  dsimp only
  rw [← hr, if_pos hfit]
  by_cases hdone : toSizeT (n + r.1.ret) = tot
  · have hfull : n + r.1.ret = 32 := by
      by_contra hne
      exact toSizeT_ne_of_lt (by omega) (by omega) hdone
    rw [if_pos hdone]
    refine ⟨h.board, by simp, (by decide : (0 : Int) ≤ 0 ∧ (0 : Int) < 32), h.scans, ?_, ?_, ?_⟩
    · intro x hx
      rcases List.mem_append.mp hx with hold | hnew
      · exact h.rows x hold
      · rw [List.mem_singleton.mp hnew]
        simp [load]
    · rw [hfull] at hall
      show (s.rows ++ [load (store s.buff n r.1.bytes) 0 32]).flatten ++ [] ++ r.2 = s.scans.flatten
      rw [List.flatten_append, List.flatten_singleton, List.append_nil]
      exact hall
    · show s.scans.length + s.rx.length = (s.rows ++ [load (store s.buff n r.1.bytes) 0 32]).length + 0
      rw [List.length_append, List.length_singleton]
      omega
  · have hne : n + r.1.ret ≠ 32 := by
      intro heq
      exact hdone (toSizeT_eq (by omega))
    rw [if_neg hdone]
    refine ⟨h.board, by simp, ?_, h.scans, h.rows, hall, ?_⟩
    · simp only [Line.got]
      omega
    · rw [if_neg (by simp)]
      exact hrequests

theorem asked_step {a : Act} (h : Asked s) (ha : Clean a) (hs : s.step signed a = some t) : Asked t := by
  cases a with
  | write arrives =>
    obtain rfl : arrives = true := ha
    obtain ⟨hpc, hs⟩ := Option.ite_none_right_eq_some.mp hs
    cases hs
    have hbytes := h.bytes
    have hrequests := h.requests
    rw [hpc] at hbytes
    rw [hpc, if_pos rfl] at hrequests
    refine ⟨h.board, by simp, (by decide : (0 : Int) ≤ 0 ∧ (0 : Int) < 32), h.scans, h.rows, hbytes, ?_⟩
    show s.scans.length + (s.rx ++ [49]).length = s.rows.length + 1
    rw [List.length_append, List.length_singleton]
    omega
  | read a =>
    cases hpc : s.host with
    | reading n =>
      simp only [step, hpc, Option.some.injEq] at hs
      subst hs
      exact asked_read h hpc ha
    | write => simp [step, hpc] at hs
    | undefined => simp [step, hpc] at hs
  | noise b => exact ha.elim
  | setup => simp [step, h.board] at hs
  | scan analog =>
    obtain ⟨⟨-, hne⟩, hs⟩ := Option.ite_none_right_eq_some.mp hs
    cases hs
    refine ⟨h.board, h.host, h.got, ?_, h.rows, ?_, ?_⟩
    · intro x hx
      rcases List.mem_append.mp hx with hold | hnew
      · exact h.scans x hold
      · rw [List.mem_singleton.mp hnew]
        exact length_scanBytes analog
    · show s.rows.flatten ++ load s.buff 0 (Line.got s.host).toNat ++ (s.tx ++ scanBytes analog) = _
      rw [← List.append_assoc, h.bytes, List.flatten_append, List.flatten_singleton]
    · have hpos := List.length_pos_iff.mpr hne
      have hrequests := h.requests
      show (s.scans ++ [scanBytes analog]).length + s.rx.tail.length = s.rows.length + if s.host = .write then 0 else 1
      rw [List.length_append, List.length_singleton, List.length_tail]
      omega

/-! ## Rows and scans -/

/-- A piece of a concatenation of pieces of one length. -/
theorem piece_of_flatten {α : Type} {n : Nat} {l : List (List α)} (hl : ∀ x ∈ l, x.length = n) {rest all : List α}
    (hall : l.flatten ++ rest = all) {j : Nat} {x : List α} (hx : l[j]? = some x) : x = (all.drop (n * j)).take n := by
  induction l generalizing all j with
  | nil => cases hx
  | cons y l ih =>
    obtain ⟨hy, hl⟩ := List.forall_mem_cons.mp hl
    rw [List.flatten_cons, List.append_assoc] at hall
    subst hall
    cases j with
    | zero =>
      cases hx
      rw [Nat.mul_zero, List.drop_zero, List.take_left' hy]
    | succ j =>
      rw [List.getElem?_cons_succ] at hx
      rw [Nat.mul_succ, Nat.add_comm, ← List.drop_drop, List.drop_left' hy]
      exact ih hl rfl hx

theorem length_flatten {α : Type} {n : Nat} {l : List (List α)} (hl : ∀ x ∈ l, x.length = n) :
    l.flatten.length = n * l.length := by
  rw [List.length_flatten, List.map_congr_left hl, List.map_const', List.sum_replicate, smul_eq_mul, Nat.mul_comm]

/-- The bytes of `readS` so far. -/
def partly (s : Line) : Nat := (got s.host).toNat

/-- In every run of `main` from its start and the sketch in its loop, in which nothing fails or
    gets lost: what is asked for and not printed, at the sketch, on the line or in the
    buffer, grows by 96 bytes a row; and row `j` is a quarter of scan `j / 4`. -/
theorem falls_behind (h0 : Ready s) (hclean : ∀ a ∈ as, Clean a) (hrun : run (step signed) s as = some t) :
    128 * t.rx.length + t.tx.length + t.partly = 96 * t.rows.length + (if t.host = .write then 0 else 128) ∧
      ∀ j row, t.rows[j]? = some row →
        ∃ scan, t.scans[j / 4]? = some scan ∧ row = (scan.drop (32 * (j % 4))).take 32 := by
  have hasked : Asked s := by
    refine ⟨h0.board, ?_, ?_, ?_, ?_, ?_, ?_⟩
    · simp [h0.host]
    · simp [h0.host, Line.got]
    · simp [h0.scans]
    · simp [h0.rows]
    · simp [h0.rows, h0.scans, h0.tx, h0.host, Line.got, load]
    · simp [h0.rows, h0.scans, h0.rx, h0.host]
  have hinv := run_invariant_of_meets (fun _ _ _ => asked_step) hasked (meets_of_forall hclean) hrun
  have hlen := congrArg List.length hinv.bytes
  rw [List.length_append, List.length_append, length_flatten hinv.rows, length_flatten hinv.scans] at hlen
  have hpart : (load t.buff 0 (Line.got t.host).toNat).length = t.partly := by simp [load, partly]
  rw [hpart] at hlen
  have hrequests := hinv.requests
  refine ⟨?_, ?_⟩
  · by_cases hwrite : t.host = .write
    · rw [if_pos hwrite] at hrequests ⊢
      omega
    · rw [if_neg hwrite] at hrequests ⊢
      omega
  · intro j row hrow
    have hj : j < t.rows.length := (List.getElem?_eq_some_iff.mp hrow).1
    have hscan : j / 4 < t.scans.length := by omega
    refine ⟨t.scans[j / 4], List.getElem?_eq_getElem hscan, ?_⟩
    have hbytes := hinv.bytes
    rw [List.append_assoc] at hbytes
    have hpiece := piece_of_flatten hinv.scans (List.append_nil _) (List.getElem?_eq_getElem hscan)
    rw [piece_of_flatten hinv.rows hbytes hrow, hpiece, List.drop_take, List.drop_drop, List.take_take,
      show 128 * (j / 4) + 32 * (j % 4) = 32 * j by omega, Nat.min_eq_left (by omega)]

/-- `main` has printed three rows of one scan when its second request is answered. -/
def looping : Line := ⟨.write, fun _ => 0, [], 0, .loop, 0, [], [], []⟩

def threeRows : List Act :=
  [.write true, .scan fun a i => BitVec.ofNat 16 (8 * a + i), .read (.upto 20), .read (.upto 20), .write true,
    .read (.upto 64), .write true, .read (.upto 64), .scan fun _ _ => 0]

theorem falls_behind_by_three_rows :
    ∃ t, run (step true) looping threeRows = some t ∧
      (t.rows.length, t.scans.length, t.rx.length, t.tx.length) = (3, 2, 1, 160) ∧
      128 * t.rx.length + t.tx.length + t.partly = 96 * t.rows.length + (if t.host = .write then 0 else 128) ∧
      ∀ j row, t.rows[j]? = some row →
        ∃ scan, t.scans[j / 4]? = some scan ∧ row = (scan.drop (32 * (j % 4))).take 32 := by
  have hrun : (run (step true) looping threeRows).map (fun t => (t.rows.length, t.scans.length, t.rx.length, t.tx.length)) =
      some (3, 2, 1, 160) := by decide +kernel
  obtain ⟨t, ht, hcounts⟩ := Option.map_eq_some_iff.mp hrun
  have hclean : ∀ a ∈ threeRows, Clean a := by
    intro a ha
    simp only [threeRows, List.mem_cons, List.not_mem_nil, or_false] at ha
    rcases ha with rfl | rfl | rfl | rfl | rfl | rfl | rfl | rfl | rfl <;> simp [Clean]
  have hready : Ready looping := ⟨rfl, rfl, rfl, rfl, rfl, rfl, rfl⟩
  exact ⟨t, ht, hcounts, falls_behind hready hclean ht⟩

end Line

end ComClient.Board
