/-
  ComClient.Client.Deadlock — a reader and a writer of one client, and a peer that answers.

  The writer sends the requests of some rounds, the reader reads their replies, both through
  the client of `Shared`; the peer sends a reply once all of its request has arrived. Over
  TCP a `recv` waits for a byte; over a serial port it returns after the port's timeout, so
  there is always a step.

  Over TCP, `readS` holds the mutex while it waits. A reader that gets the mutex before the
  request is written keeps the writer out, and the peer never answers
  (`a_reader_locks_the_writer_out`). That is the only way to get stuck (`stuck_cases`), so
  nothing does when each read takes the mutex after its request was written
  (`never_stuck_when_timely`).
-/

import ComClient.Client.Shared

namespace ComClient.Client

open ComClient.Transport ComClient.Lts ComClient.Client.Shared

namespace Deadlock

inductive Side where
  | reader
  | writer
  deriving DecidableEq, Repr

/-- A request, its reply, and the calls that write the one and read the other. A reply has a
    byte at least, and fits in memory. -/
structure Round where
  request : Mem
  requestSize : SizeT
  addCrc : Bool
  reply : List Byte
  buffer : Mem
  size : SizeT
  hasCrc : Bool
  size_eq : size.val = reply.length
  nonempty : 0 < size.val
  fits : size.val < 2 ^ 63

def Round.write (r : Round) : Shared.Op := .writeS r.request r.requestSize r.addCrc

def Round.read (r : Round) : Shared.Op := .readS r.buffer r.size r.hasCrc

def Round.op (r : Round) : Side → Shared.Op
  | .writer => r.write
  | .reader => r.read

structure St where
  client : Shared.St Side
  toWrite : List Round
  toRead : List Round

inductive Act where
  | callWrite
  | callRead
  | lock (t : Side)
  | store (t : Side)
  | send (t : Side) (k : Nat)
  | recv (t : Side) (k : Nat)
  | unlock (t : Side)
  /-- The peer sends up to `k` bytes more. -/
  | reply (k : Nat)
  deriving DecidableEq

/-- The replies to the requests that are complete within `n` bytes. -/
def answers : List Round → Nat → List Byte
  | [], _ => []
  | r :: rs, n => if (frame r.write).length ≤ n then r.reply ++ answers rs (n - (frame r.write).length) else []

section

variable (kind : StreamClient) (rounds : List Round)

/-- What the peer may send by now and has not sent. -/
def owed (s : St) : List Byte := (answers rounds s.client.wire.length).drop s.client.arrived.length

/-- A call of `recv` returns. -/
def returns (s : St) (k : Nat) : Bool :=
  match kind with
  | .tcp => !s.client.inbox.isEmpty && decide (0 < k)
  | .serial => true

/-- The step of the client, if the thread, the kernel or the peer can take it. -/
def request (s : St) : Act → Option (Shared.Act Side)
  | .callWrite => s.toWrite.head?.map fun r => .call .writer r.write
  | .callRead => s.toRead.head?.map fun r => .call .reader r.read
  | .lock t => some (.lock t)
  | .store t => some (.store t)
  | .send t k => some (.send t k)
  | .recv t k => if returns kind s k then some (.recv t k) else none
  | .unlock t => some (.unlock t)
  | .reply k => if ((owed rounds s).take k).isEmpty then none else some (.arrive ((owed rounds s).take k))

def after (s : St) (c : Shared.St Side) : Act → St
  | .callWrite => ⟨c, s.toWrite.tail, s.toRead⟩
  | .callRead => ⟨c, s.toWrite, s.toRead.tail⟩
  | _ => ⟨c, s.toWrite, s.toRead⟩

def step (s : St) (a : Act) : Option St :=
  (request kind rounds s a).bind fun b => (Shared.step s.client b).map fun c => after s c a

def start : St := ⟨Shared.start, rounds, rounds⟩

/-- Someone has work to do. -/
def HasWork (s : St) : Prop := s.toWrite ≠ [] ∨ s.toRead ≠ [] ∨ ∃ t, s.client.pc t ≠ .idle

def Stuck (s : St) : Prop := HasWork s ∧ ∀ a, step kind rounds s a = none

/-- The writes that have returned, and the reads that have taken the mutex. -/
def written (s : St) : Nat := (callsOf .writer (s.client.done.map Done.call)).length

def begun (s : St) : Nat := (callsOf .reader s.client.locked).length

/-- Over TCP, a read takes the mutex only when the write of its request has returned. -/
def Timely (s : St) (a : Act) : Prop := kind = .tcp → a = .lock .reader → begun s < written s

instance (s : St) (a : Act) : Decidable (Timely kind s a) :=
  inferInstanceAs (Decidable (kind = .tcp → a = .lock .reader → begun s < written s))

end

variable {kind : StreamClient} {rounds : List Round} {s t : St} {a : Act}

theorem step_client (h : step kind rounds s a = some t) :
    ∃ b c, request kind rounds s a = some b ∧ Shared.step s.client b = some c ∧ t = after s c a := by
  obtain ⟨b, hb, h⟩ := Option.bind_eq_some_iff.mp h
  obtain ⟨c, hc, rfl⟩ := Option.map_eq_some_iff.mp h
  exact ⟨b, c, hb, hc, rfl⟩

@[simp] theorem after_client (s : St) (c : Shared.St Side) (a : Act) : (after s c a).client = c := by cases a <;> rfl

/-- A step of the client that is taken. -/
theorem step_isSome {b : Shared.Act Side} (hb : request kind rounds s a = some b) (hc : (Shared.step s.client b).isSome) :
    step kind rounds s a ≠ none := by
  obtain ⟨c, hc⟩ := Option.isSome_iff_exists.mp hc
  simp [step, hb, hc]

/-! ## The invariant -/

structure Inv (rounds : List Round) (s : St) : Prop where
  client : Shared.Inv s.client
  writes : callsOf .writer s.client.called ++ s.toWrite.map Round.write = rounds.map Round.write
  reads : callsOf .reader s.client.called ++ s.toRead.map Round.read = rounds.map Round.read

theorem inv_start (rounds : List Round) : Inv rounds (start rounds) := ⟨Shared.inv_start, rfl, rfl⟩

/-- A call is the next one of its thread; nothing else is a call. -/
theorem request_calls {b : Shared.Act Side} (h : request kind rounds s a = some b) :
    b.callsOf .writer ++ (after s s.client a).toWrite.map Round.write = s.toWrite.map Round.write ∧
      b.callsOf .reader ++ (after s s.client a).toRead.map Round.read = s.toRead.map Round.read := by
  cases a with
  | callWrite =>
    obtain ⟨r, hr, h⟩ := Option.map_eq_some_iff.mp h
    obtain ⟨rs, hrs⟩ := List.head?_eq_some_iff.mp hr
    cases h
    simp [Shared.Act.callsOf, after, hrs]
  | callRead =>
    obtain ⟨r, hr, h⟩ := Option.map_eq_some_iff.mp h
    obtain ⟨rs, hrs⟩ := List.head?_eq_some_iff.mp hr
    cases h
    simp [Shared.Act.callsOf, after, hrs]
  | lock u => cases h; exact ⟨rfl, rfl⟩
  | store u => cases h; exact ⟨rfl, rfl⟩
  | send u k => cases h; exact ⟨rfl, rfl⟩
  | recv u k =>
    obtain ⟨-, h⟩ := Option.ite_none_right_eq_some.mp h
    cases h
    exact ⟨rfl, rfl⟩
  | unlock u => cases h; exact ⟨rfl, rfl⟩
  | reply k =>
    obtain ⟨-, h⟩ := Option.ite_none_left_eq_some.mp h
    cases h
    exact ⟨rfl, rfl⟩

theorem after_toWrite (s : St) (c c' : Shared.St Side) (a : Act) : (after s c a).toWrite = (after s c' a).toWrite := by
  cases a <;> rfl

theorem after_toRead (s : St) (c c' : Shared.St Side) (a : Act) : (after s c a).toRead = (after s c' a).toRead := by
  cases a <;> rfl

theorem step_inv (hs : Inv rounds s) (h : step kind rounds s a = some t) : Inv rounds t := by
  obtain ⟨b, c, hb, hc, rfl⟩ := step_client h
  obtain ⟨hwrite, hread⟩ := request_calls hb
  refine ⟨?_, ?_, ?_⟩
  · rw [after_client]
    exact Shared.step_inv hs.client hc
  · rw [after_client, step_called hc, List.append_assoc, after_toWrite s c s.client, hwrite]
    exact hs.writes
  · rw [after_client, step_called hc, List.append_assoc, after_toRead s c s.client, hread]
    exact hs.reads

/-- A call that has taken the mutex is one of the rounds'. -/
theorem locked_op (hs : Inv rounds s) {u : Side} {op : Shared.Op} (h : (u, op) ∈ s.client.locked) :
    ∃ r ∈ rounds, op = r.op u := by
  have hmem : op ∈ callsOf u s.client.called := by
    rw [hs.client.order u]
    refine List.mem_append_left _ (List.mem_map.mpr ⟨(u, op), ?_, rfl⟩)
    exact List.mem_filter.mpr ⟨h, by simp⟩
  cases u with
  | writer =>
    have hround : op ∈ rounds.map Round.write := by
      rw [← hs.writes]
      exact List.mem_append_left _ hmem
    obtain ⟨r, hr, rfl⟩ := List.mem_map.mp hround
    exact ⟨r, hr, rfl⟩
  | reader =>
    have hround : op ∈ rounds.map Round.read := by
      rw [← hs.reads]
      exact List.mem_append_left _ hmem
    obtain ⟨r, hr, rfl⟩ := List.mem_map.mp hround
    exact ⟨r, hr, rfl⟩

theorem holder_op (hs : Inv rounds s) {u : Side} {op : Shared.Op} (h : s.client.holder = some (u, op)) :
    ∃ r ∈ rounds, op = r.op u := by
  refine locked_op hs ?_
  rw [hs.client.locked, h]
  simp

/-! ## What is stuck -/

/-- A read that has something to get. -/
theorem recv_isSome {c : Shared.St Side} {u : Side} {op : Shared.Op} {buffer : Mem} {size : SizeT} {hasCrc : Bool} {n : Int}
    (hin : Inside c.moved op (.receiving buffer size hasCrc n)) (hpc : c.pc u = .receiving buffer size hasCrc n)
    (hsize : size.val < 2 ^ 63) : (Shared.step c (.recv u 1)).isSome := by
  have hpiece : (c.inbox.take (min 1 (size - toSizeT n).val)).length ≤ min 1 (size - toSizeT n).val := List.length_take_le _ _
  have hroom := room size n
  cases hin with
  | receiving buffer _ _ hmoved _ =>
    have hfits :
        fitsSsize ((c.moved.length : Int) + (c.inbox.take (min 1 (size - toSizeT c.moved.length).val)).length) = true := by
      rw [fitsSsize_iff]
      rcases hmoved with hmoved | hmoved
      · omega
      · simp only [hmoved, List.length_nil] at hpiece ⊢
        omega
    simp only [Shared.step, hpc, hfits, if_true, Option.isSome_some]

theorem read_size {r : Round} {u : Side} {buffer : Mem} {size : SizeT} {hasCrc : Bool}
    (h : .readS buffer size hasCrc = r.op u) : u = .reader ∧ size = r.size := by
  cases u with
  | writer => cases h
  | reader =>
    cases h
    exact ⟨rfl, rfl⟩

/-- A stuck reader. -/
structure Silent (kind : StreamClient) (rounds : List Round) (s : St) : Prop where
  kind : kind = .tcp
  receiving : ∃ r ∈ rounds, s.client.holder = some (.reader, r.read) ∧
    (s.client.moved.length < r.size.val ∨ s.client.moved = [])
  inbox : s.client.inbox = []
  owed : owed rounds s = []

/-- Without a holder some thread can go on. -/
theorem free_step (kind : StreamClient) (hs : Inv rounds s) (hholder : s.client.holder = none) (hwork : HasWork s) :
    ∃ a, step kind rounds s a ≠ none := by
  have houtside : ∀ u, s.client.pc u = .idle ∨ ∃ op, s.client.pc u = .waiting op := by
    intro u
    refine hs.client.outside u ?_
    rw [hholder]
    exact fun _ => nofun
  by_cases hwaiting : ∃ u op, s.client.pc u = .waiting op
  · obtain ⟨u, op, hpc⟩ := hwaiting
    refine ⟨.lock u, step_isSome (b := .lock u) rfl ?_⟩
    simp [Shared.step, hholder, hpc]
  · have hidle : ∀ u, s.client.pc u = .idle := by
      intro u
      rcases houtside u with hpc | ⟨op, hpc⟩
      · exact hpc
      · exact absurd ⟨u, op, hpc⟩ hwaiting
    rcases hwork with hwrite | hread | ⟨u, hpc⟩
    · obtain ⟨r, rs, hrs⟩ := List.exists_cons_of_ne_nil hwrite
      refine ⟨.callWrite, step_isSome (b := .call .writer r.write) ?_ ?_⟩
      · simp [request, hrs]
      · simp [Shared.step, hidle]
    · obtain ⟨r, rs, hrs⟩ := List.exists_cons_of_ne_nil hread
      refine ⟨.callRead, step_isSome (b := .call .reader r.read) ?_ ?_⟩
      · simp [request, hrs]
      · simp [Shared.step, hidle]
    · exact absurd (hidle u) hpc

/-- With a holder, it can go on, unless it waits for a byte. -/
theorem held_step (hs : Inv rounds s) {u : Side} {op : Shared.Op} (hholder : s.client.holder = some (u, op))
    (hstuck : ∀ a, step kind rounds s a = none) :
    kind = .tcp ∧ s.client.inbox = [] ∧ ∃ r ∈ rounds, u = .reader ∧ op = r.read ∧
      (s.client.moved.length < r.size.val ∨ s.client.moved = []) := by
  obtain ⟨r, hr, hop⟩ := holder_op hs hholder
  have hin := hs.client.inside u op hholder
  cases hpc : s.client.pc u with
  | idle => rw [hpc] at hin; cases hin
  | waiting op' => rw [hpc] at hin; cases hin
  | storing buffer size =>
    refine absurd (hstuck (.store u)) (step_isSome (b := .store u) rfl ?_)
    simp [Shared.step, hpc]
  | sending buffer len rest =>
    refine absurd (hstuck (.send u 1)) (step_isSome (b := .send u 1) rfl ?_)
    simp [Shared.step, hpc]
  | returning buffer ret =>
    refine absurd (hstuck (.unlock u)) (step_isSome (b := .unlock u) rfl ?_)
    simp [Shared.step, hpc, hholder]
  | receiving buffer size hasCrc n =>
    rw [hpc] at hin
    have hsome : size.val < 2 ^ 63 → (Shared.step s.client (.recv u 1)).isSome := recv_isSome hin hpc
    cases hin with
    | receiving buffer _ _ hmoved _ =>
      obtain ⟨rfl, rfl⟩ := read_size hop
      by_cases hreturns : returns kind s 1 = true
      · refine absurd (hstuck (.recv .reader 1)) (step_isSome (b := .recv .reader 1) ?_ (hsome r.fits))
        simp [request, hreturns]
      · cases kind with
        | serial => exact absurd rfl hreturns
        | tcp =>
          refine ⟨rfl, ?_, r, hr, rfl, hop, hmoved⟩
          simpa [returns] using hreturns

/-- Whatever is stuck is a reader that holds the mutex and waits for a reply that the peer does
    not owe. -/
theorem stuck_cases (hs : Inv rounds s) (h : Stuck kind rounds s) : Silent kind rounds s := by
  obtain ⟨hwork, hstuck⟩ := h
  cases hholder : s.client.holder with
  | none =>
    obtain ⟨a, ha⟩ := free_step kind hs hholder hwork
    exact absurd (hstuck a) ha
  | some holder =>
    obtain ⟨u, op⟩ := holder
    obtain ⟨hkind, hinbox, r, hr, rfl, rfl, hmoved⟩ := held_step hs hholder hstuck
    refine ⟨hkind, ⟨r, hr, hholder, hmoved⟩, hinbox, ?_⟩
    by_cases howed : (owed rounds s).isEmpty = true
    · exact List.isEmpty_iff.mp howed
    · refine absurd (hstuck (.reply (owed rounds s).length)) (step_isSome (b := .arrive (owed rounds s)) ?_ rfl)
      simp [request, howed]

/-! ## The streams -/

def asked : Shared.Op → Nat
  | .readS _ size _ => size.val
  | .writeS _ _ _ => 0

theorem length_flatMap_calls {f : Done Side → List Byte} {g : Shared.Op → Nat} {u : Side} {ds : List (Done Side)}
    (h : ∀ d ∈ ds, (f d).length = if d.who = u then g d.op else 0) :
    (ds.flatMap f).length = ((callsOf u (ds.map Done.call)).map g).sum := by
  induction ds with
  | nil => rfl
  | cons d ds ih =>
    obtain ⟨hd, hds⟩ := List.forall_mem_cons.mp h
    have hsplit : callsOf u ((d :: ds).map Done.call) = callsOf u [(d.who, d.op)] ++ callsOf u (ds.map Done.call) :=
      callsOf_append u [(d.who, d.op)] (ds.map Done.call)
    rw [List.flatMap_cons, List.length_append, ih hds, hd, hsplit, List.map_append, List.sum_append]
    by_cases hu : d.who = u
    · rw [if_pos hu, hu, callsOf_self]
      rfl
    · rw [if_neg hu, callsOf_other hu]
      rfl

theorem done_op (hs : Inv rounds s) {d : Done Side} (hd : d ∈ s.client.done) : ∃ r ∈ rounds, d.op = r.op d.who := by
  refine locked_op hs ?_
  rw [hs.client.locked]
  exact List.mem_append_left _ (List.mem_map.mpr ⟨d, hd, rfl⟩)

theorem sent_length (hs : Inv rounds s) :
    (s.client.done.flatMap Done.sent).length =
      ((callsOf .writer (s.client.done.map Done.call)).map fun op => (frame op).length).sum := by
  refine length_flatMap_calls ?_
  intro d hd
  obtain ⟨r, -, hop⟩ := done_op hs hd
  have hcomplete := hs.client.complete d hd
  rw [Done.sent]
  cases hwho : d.who with
  | reader =>
    rw [hwho] at hop
    rw [hop, if_neg (by decide)]
    rfl
  | writer =>
    rw [hwho] at hop
    rw [hop] at hcomplete ⊢
    rw [if_pos rfl]
    exact congrArg List.length hcomplete.1

theorem got_length (hs : Inv rounds s) :
    (s.client.done.flatMap Done.got).length = ((callsOf .reader (s.client.done.map Done.call)).map asked).sum := by
  refine length_flatMap_calls ?_
  intro d hd
  obtain ⟨r, -, hop⟩ := done_op hs hd
  have hcomplete := hs.client.complete d hd
  rw [Done.got]
  cases hwho : d.who with
  | writer =>
    rw [hwho] at hop
    rw [hop, if_neg (by decide)]
    rfl
  | reader =>
    rw [hwho] at hop
    rw [hop] at hcomplete ⊢
    rw [if_pos rfl]
    exact hcomplete.1

/-- The calls of one thread that have taken the mutex are those of the first rounds. -/
theorem locked_rounds (hs : Inv rounds s) (u : Side) :
    callsOf u s.client.locked = (rounds.take (callsOf u s.client.locked).length).map (Round.op · u) := by
  have hprefix : callsOf u s.client.locked <+: rounds.map (Round.op · u) := by
    cases u with
    | writer => exact ⟨_, by rw [← List.append_assoc, ← hs.client.order]; exact hs.writes⟩
    | reader => exact ⟨_, by rw [← List.append_assoc, ← hs.client.order]; exact hs.reads⟩
  rw [List.map_take]
  exact List.prefix_iff_eq_take.mp hprefix

theorem done_writes (hs : Inv rounds s) :
    callsOf .writer (s.client.done.map Done.call) = (rounds.take (written s)).map Round.write := by
  have hprefix : callsOf .writer (s.client.done.map Done.call) <+: callsOf .writer s.client.locked := by
    rw [hs.client.locked, callsOf_append]
    exact List.prefix_append _ _
  have htake : callsOf .writer (s.client.done.map Done.call) = (callsOf .writer s.client.locked).take (written s) :=
    List.prefix_iff_eq_take.mp hprefix
  have hle : written s ≤ (callsOf .writer s.client.locked).length := hprefix.length_le
  rw [htake, locked_rounds hs .writer, ← List.map_take, List.take_take, Nat.min_eq_left hle]
  rfl

theorem sum_take_le (f : Round → Nat) {i j : Nat} (h : i ≤ j) : ((rounds.take i).map f).sum ≤ ((rounds.take j).map f).sum := by
  have hsub : (rounds.take i).Sublist (rounds.take j) := (List.take_prefix_take_left h).sublist
  exact (hsub.map f).sum_le_sum fun _ _ => Nat.zero_le _

/-- The replies to requests that are wholly written may all be sent. -/
theorem answers_length (rounds : List Round) (j n : Nat) (h : ((rounds.take j).map fun r => (frame r.write).length).sum ≤ n) :
    ((rounds.take j).map fun r => r.size.val).sum ≤ (answers rounds n).length := by
  induction rounds generalizing j n with
  | nil => simp
  | cons r rs ih =>
    cases j with
    | zero => simp
    | succ j =>
      simp only [List.take_succ_cons, List.map_cons, List.sum_cons] at h ⊢
      have hrest := ih j (n - (frame r.write).length) (by omega)
      rw [answers, if_pos (by omega), List.length_append, ← r.size_eq]
      omega

/-- A reader that took the mutex after its request was written is owed something. -/
theorem not_silent (hs : Inv rounds s) (htimely : begun s ≤ written s) : ¬ Silent kind rounds s := by
  rintro ⟨-, ⟨r, hr, hholder, hmoved⟩, hinbox, howed⟩
  have hlocked : s.client.locked = s.client.done.map Done.call ++ [(.reader, r.read)] := by
    rw [hs.client.locked, hholder]
    rfl
  have hreads : ((callsOf .reader s.client.locked).map asked).sum = ((rounds.take (begun s)).map fun r => r.size.val).sum := by
    rw [locked_rounds hs .reader, List.map_map]
    rfl
  have hgot : ((callsOf .reader s.client.locked).map asked).sum = (s.client.done.flatMap Done.got).length + r.size.val := by
    rw [got_length hs, hlocked, callsOf_append, callsOf_self, List.map_append, List.sum_append]
    rfl
  have harrived : s.client.arrived.length = (s.client.done.flatMap Done.got).length + s.client.moved.length := by
    rw [hs.client.arrived, hinbox, List.append_nil, List.length_append, St.reading, hholder]
    rfl
  have hwire : ((rounds.take (written s)).map fun r => (frame r.write).length).sum ≤ s.client.wire.length := by
    rw [hs.client.wire, List.length_append, sent_length hs, done_writes hs, List.map_map]
    exact Nat.le_add_right _ _
  have hanswers := answers_length rounds (begun s) s.client.wire.length
    ((sum_take_le (fun r => (frame r.write).length) htimely).trans hwire)
  have hall : (answers rounds s.client.wire.length).length ≤ s.client.arrived.length := List.drop_eq_nil_iff.mp howed
  have hsize := r.nonempty
  rcases hmoved with hmoved | hmoved
  · omega
  · rw [hmoved] at harrived
    rw [List.length_nil] at harrived
    omega

/-! ## A run -/

/-- Over TCP, the request of the read that holds the mutex is written. -/
def Granted (kind : StreamClient) (s : St) : Prop :=
  kind = .tcp → (∃ op, s.client.holder = some (.reader, op)) → begun s ≤ written s

theorem request_lock {u : Side} (h : request kind rounds s a = some (.lock u)) : a = .lock u := by
  cases a with
  | lock u' =>
    cases h
    rfl
  | callWrite => simp [request] at h
  | callRead => simp [request] at h
  | recv u' k => simp [request] at h
  | reply k => simp [request] at h
  | store u' => cases h
  | send u' k => cases h
  | unlock u' => cases h

theorem step_granted (hs : Granted kind s) (ha : Timely kind s a) (h : step kind rounds s a = some t) : Granted kind t := by
  obtain ⟨b, c, hb, hc, rfl⟩ := step_client h
  rintro hkind ⟨op, hholder⟩
  rw [after_client] at hholder
  obtain ⟨hdone, hcase⟩ := step_holder hc hholder
  have hwritten : written (after s c a) = written s := by rw [written, after_client, hdone, written]
  rw [hwritten]
  rcases hcase with ⟨rfl, hlocked⟩ | ⟨hbefore, hlocked⟩
  · have hbegun : begun (after s c a) = begun s + 1 := by
      rw [begun, after_client, hlocked, callsOf_append, callsOf_self, List.length_append, begun]
      rfl
    rw [hbegun]
    exact ha hkind (request_lock hb)
  · have hbegun : begun (after s c a) = begun s := by rw [begun, after_client, hlocked, begun]
    rw [hbegun]
    exact hs hkind ⟨op, hbefore⟩

/-- For every list of rounds and every interleaving of the two threads and the peer: over a
    serial port, and over TCP if each read takes the mutex only after its request was
    written, no state is reached in which there is work to do and nobody has a step. -/
theorem never_stuck_when_timely (kind : StreamClient) (rounds : List Round) {as : List Act}
    (h : Meets (step kind rounds) (Timely kind) (start rounds) as) :
    Always (step kind rounds) (fun s => ¬ Stuck kind rounds s) (start rounds) as := by
  refine always_of_meets (I := fun s => Inv rounds s ∧ Granted kind s) ?_ ?_ ⟨inv_start rounds, fun _ h => nomatch h⟩ h
  · rintro s a t ⟨hinv, hgranted⟩ ha hstep
    exact ⟨step_inv hinv hstep, step_granted hgranted ha hstep⟩
  · rintro s ⟨hinv, hgranted⟩ hstuck
    have hsilent := stuck_cases hinv hstuck
    obtain ⟨r, -, hholder, -⟩ := hsilent.receiving
    exact not_silent hinv (hgranted hsilent.kind ⟨r.read, hholder⟩) hsilent

/-- One byte there, one byte back. -/
def ping : Round where
  request := memOf [1]
  requestSize := toSizeT 1
  addCrc := false
  reply := [2]
  buffer := memOf []
  size := toSizeT 1
  hasCrc := false
  size_eq := by decide
  nonempty := by decide
  fits := by decide

/-- The request, and then the reply. -/
def inTurn : List Act :=
  [.callWrite, .callRead, .lock .writer, .send .writer 1, .unlock .writer, .lock .reader, .reply 1, .recv .reader 1,
    .unlock .reader]

theorem never_stuck_in_turn : Always (step .tcp [ping]) (fun s => ¬ Stuck .tcp [ping] s) (start [ping]) inTurn := by
  refine never_stuck_when_timely .tcp [ping] ?_
  decide +kernel

/-- The reader gets the mutex first. -/
theorem a_reader_locks_the_writer_out :
    ∃ t, run (step .tcp [ping]) (start [ping]) [.callRead, .lock .reader, .callWrite] = some t ∧ Stuck .tcp [ping] t := by
  refine ⟨_, rfl, Or.inr (Or.inr ⟨.reader, nofun⟩), ?_⟩
  intro a
  cases a with
  | callWrite => rfl
  | callRead => rfl
  | lock u => cases u <;> rfl
  | store u => cases u <;> rfl
  | send u k => cases u <;> rfl
  | recv u k => cases u <;> rfl
  | unlock u => cases u <;> rfl
  | reply k => cases k <;> rfl

end Deadlock

end ComClient.Client
