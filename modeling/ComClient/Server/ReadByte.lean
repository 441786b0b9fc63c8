/-
  ComClient.Server.ReadByte — what `TCPServer::read_byte` reports, and for how long it
  waits.

  - `readByte_reports_iff`: the number of bytes copied passes through an `int8_t`; it is
    what the caller gets if and only if it is below 128.
  - `wait_does_not_end`: once the handler of a client is in its clean-up, nothing adds to
    the client's FIFO, and the loop of a blocking `read_byte` tests nothing else: a call
    that lacks bytes then waits for ever, whatever the other threads do, unless a new
    connection gets the descriptor.
-/

import ComClient.Server.Calls
import ComClient.Server.Fifo

namespace ComClient.Server

open ComClient.Transport (Byte)
open ComClient.Lts

/-! ## What a call returns -/

/-- The number of bytes copied for a registered client, a negative value for no other. -/
structure Reports (r : Registry) (c : ReadCall) (ret : Int) (bytes : List Byte) : Prop where
  count : c.i ∈ r.clients → 0 ≤ ret ∧ ret = min c.size (r.fifo c.i).length ∧ ret = bytes.length
  refused : ret < 0 ↔ c.i ∉ r.clients

theorem toInt8_eq_iff (n : Nat) : (0 ≤ toInt8 n ∧ toInt8 n = n) ↔ n < 128 := by
  unfold toInt8 Int.bmod
  dsimp only
  split <;> omega

/-- Without `blocking` the call returns at once, with the beginning of the FIFO in the buffer. -/
theorem readByte_registered {r : Registry} {c : ReadCall} (hc : c.i ∈ r.clients) (hb : c.blocking = false) :
    ∃ r', r.readByte c =
      some (r', toInt8 (min c.size (r.fifo c.i).length : Nat), (r.fifo c.i).take (min c.size (r.fifo c.i).length)) := by
  have hcopy : ((r.sample c.i).1.clamp c.i c.size).1.copy c.i (min c.size (r.fifo c.i).length) c.erase ≠ none := by
    unfold Registry.copy
    simp
  obtain ⟨⟨r', bytes⟩, hr'⟩ := Option.ne_none_iff_exists'.mp hcopy
  obtain ⟨-, hbytes, -⟩ := Registry.copy_eq_some _ _ _ hr'
  refine ⟨r', ?_⟩
  simp only [Registry.fifo_clamp, Registry.fifo_sample] at hbytes
  unfold Registry.readByte
  rw [if_pos hc]
  simp only [hb, Bool.false_eq_true, false_and, if_false]
  have hsize : ((r.sample c.i).1.clamp c.i c.size).2 = min c.size (r.fifo c.i).length := by
    simp [Registry.clamp]
  rw [hsize, hr', hbytes]
  rfl

/-- `read_byte` reports what it did if and only if it copied less than 128 bytes. -/
theorem readByte_reports_iff (r : Registry) (c : ReadCall) (hb : c.blocking = false) :
    ∃ r' ret bytes, r.readByte c = some (r', ret, bytes) ∧
      (Reports r c ret bytes ↔ (c.i ∈ r.clients → min c.size (r.fifo c.i).length < 128)) := by
  by_cases hc : c.i ∈ r.clients
  · obtain ⟨r', hr'⟩ := readByte_registered hc hb
    refine ⟨r', _, _, hr', ?_⟩
    have hiff := toInt8_eq_iff (min c.size (r.fifo c.i).length)
    constructor
    · intro h _
      obtain ⟨hpos, hret, -⟩ := h.count hc
      exact hiff.mp ⟨hpos, hret⟩
    · intro h
      obtain ⟨hpos, hret⟩ := hiff.mpr (h hc)
      refine ⟨fun _ => ⟨hpos, ?_, ?_⟩, ?_⟩
      · rw [hret]
      · rw [hret]
        simp
      · constructor
        · intro hneg
          exact absurd hneg (Int.not_lt.mpr hpos)
        · intro hout
          exact absurd hc hout
  · refine ⟨r, -1, [], by simp [Registry.readByte, hc], ?_⟩
    constructor
    · intro _ hin
      exact absurd hin hc
    · intro _
      exact ⟨fun hin => absurd hin hc, ⟨fun _ => hc, fun _ => by decide⟩⟩

/-- The client 4 has sent `n` bytes. -/
def holding4 (n : Nat) : Registry := (Registry.empty.register 4).append 4 (List.replicate n 7)

def readAll (n : Nat) : ReadCall := ⟨4, n, false, true⟩

theorem readByte_reports_fourteen_bytes :
    (readAll 14).blocking = false ∧
      ∃ r' ret bytes, (holding4 14).readByte (readAll 14) = some (r', ret, bytes) ∧
        (Reports (holding4 14) (readAll 14) ret bytes ↔
          ((readAll 14).i ∈ (holding4 14).clients → min (readAll 14).size ((holding4 14).fifo (readAll 14).i).length < 128)) :=
  ⟨rfl, readByte_reports_iff (holding4 14) (readAll 14) rfl⟩

/-- 200 bytes are copied, and -56 is returned. -/
theorem two_hundred_bytes_are_reported_as_an_error :
    ∃ r' ret bytes, (holding4 200).readByte (readAll 200) = some (r', ret, bytes) ∧ ret = -56 ∧ bytes.length = 200 ∧
      (readAll 200).i ∈ (holding4 200).clients ∧ ¬ Reports (holding4 200) (readAll 200) ret bytes := by
  have hc : (readAll 200).i ∈ (holding4 200).clients := by decide +kernel
  have hlen : ((holding4 200).fifo (readAll 200).i).length = 200 := by decide +kernel
  obtain ⟨r', hr'⟩ := readByte_registered hc rfl
  have hret : toInt8 (min (readAll 200).size ((holding4 200).fifo (readAll 200).i).length : Nat) = -56 := by
    rw [hlen]
    decide
  refine ⟨r', _, _, hr', hret, ?_, hc, ?_⟩
  · rw [List.length_take, hlen]
    decide
  · intro h
    obtain ⟨hpos, -⟩ := h.count hc
    rw [hret] at hpos
    exact absurd hpos (by decide)

namespace TCPServer

variable {s t : TCPServer} {as bs : List Act} {i : Socket} {u : Tid} {c : ReadCall}

/-! ## How long a call waits -/

/-- The call has passed its membership test and has not left the loop. -/
def InLoop (s : TCPServer) (u : Tid) (c : ReadCall) : Prop := s.users u = .sample c ∨ s.users u = .wait c

instance (s : TCPServer) (u : Tid) (c : ReadCall) : Decidable (s.InLoop u c) := inferInstanceAs (Decidable (_ ∨ _))

def reuses (i : Socket) : Act → Bool
  | .accept (.connection fd) => (fd : Socket) = i
  | _ => false

/-- No connection gets the descriptor. -/
def NoReuse (i : Socket) (as : List Act) : Prop := ∀ a ∈ as, reuses i a = false

instance (i : Socket) (as : List Act) : Decidable (NoReuse i as) := inferInstanceAs (Decidable (∀ _ ∈ as, _))

/-- The call leaves its loop within some number of iterations, whatever happens meanwhile. -/
def LoopExits (s : TCPServer) (u : Tid) (c : ReadCall) : Prop :=
  ∃ n, ∀ bs t, NoReuse c.i bs → run step s bs = some t → n ≤ bs.count (.user u .go) →
    ¬ Always step (fun m => m.InLoop u c) s bs

/-- Every handler of the descriptor has left its loop, and none is about to be started. -/
structure Gone (i : Socket) (s : TCPServer) : Prop where
  handlers : ∀ tid pc, s.handlers tid = some ⟨i, pc⟩ → serving pc = false
  accepting : unstarted s.accept ≠ some i

/-- A descriptor has one owner, so a client whose handler cleans up has no other. -/
theorem gone_of_close (ho : Owned s) {tid : Tid} (hh : s.handlers tid = some ⟨i, .close⟩) : Gone i s := by
  have hown : s.Owns tid i := ⟨.close, hh, rfl⟩
  refine ⟨?_, ?_⟩
  · intro g pc hg
    by_contra hne
    have hserving : serving pc = true := Bool.not_eq_false _ ▸ hne
    have heq : g = tid := ho.unique g tid i ⟨pc, hg, holding_of_serving hserving⟩ hown
    subst heq
    rw [hh] at hg
    cases hg
    cases hserving
  · intro hun
    exact (ho.accepting i hun).2 tid hown

theorem gone_frame (h : Gone i s) (hh : t.handlers = s.handlers) (ha : t.accept = s.accept) : Gone i t := by
  refine ⟨?_, ?_⟩
  · rw [hh]
    exact h.handlers
  · rw [ha]
    exact h.accepting

theorem gone_acceptStep {a : AcceptAct} (h : Gone i s) (ha : reuses i (.accept a) = false) (hs : AcceptStep s a t) :
    Gone i t := by
  cases hs with
  | startThread fd hpc =>
    have hne : fd ≠ i := by
      rintro rfl
      exact h.accepting (by rw [hpc]; rfl)
    refine ⟨?_, nofun⟩
    intro tid pc hh
    rcases upd_eq_some.mp hh with ⟨-, hh⟩ | ⟨-, hh⟩
    · cases hh
      exact absurd rfl hne
    · exact h.handlers tid pc hh
  | connection fd hpc hfree =>
    refine ⟨h.handlers, ?_⟩
    intro hun
    cases hun
    simp [reuses] at ha
  | check hpc =>
    refine ⟨h.handlers, ?_⟩
    dsimp only
    split <;> exact nofun
  | error e hpc =>
    refine ⟨h.handlers, ?_⟩
    dsimp only
    split <;> exact nofun
  | insertClient fd hpc => exact ⟨h.handlers, fun hun => h.accepting (by rw [hpc]; exact hun)⟩
  | setFifo fd hpc => exact ⟨h.handlers, fun hun => h.accepting (by rw [hpc]; exact hun)⟩
  | makeMutex fd hpc => exact ⟨h.handlers, fun hun => h.accepting (by rw [hpc]; exact hun)⟩
  | assign fd tid hpc hnone => exact ⟨h.handlers, nofun⟩
  | terminate fd tid old hpc hold => exact ⟨h.handlers, h.accepting⟩
  | notify fd hpc => exact ⟨h.handlers, nofun⟩

theorem gone_step {a : Act} (h : Gone i s) (ha : reuses i a = false) (hs : s.step a = some t) : Gone i t := by
  obtain ⟨-, hs⟩ := step_cases hs
  cases a with
  | accept a => exact gone_acceptStep h ha hs
  | handler tid a =>
    obtain ⟨fd, pc, pc', hpc, hgoes, hup⟩ := HandlerStep.move hs
    have hsame := HandlerStep.same hs
    refine ⟨?_, by rw [hsame.accept]; exact h.accepting⟩
    intro g p hg
    rw [hup] at hg
    rcases upd_eq_some.mp hg with ⟨rfl, hh⟩ | ⟨-, hh⟩
    · cases hh
      have hleft := h.handlers g pc hpc
      by_contra hne
      rw [hgoes.serving (Bool.not_eq_false _ ▸ hne)] at hleft
      cases hleft
    · exact h.handlers g p hh
  | stop a => exact gone_frame h (StopStep.handlers hs) (StopStep.accept hs)
  | user v a => exact gone_frame h (UserStep.handlers hs) (UserStep.same hs).accept
  | world a => exact gone_frame h (WorldStep.handlers hs) (WorldStep.same hs).accept

/-- Only a handler in its loop adds to a FIFO. -/
theorem fifo_shrinks {a : Act} (h : Gone i s) (hs : s.step a = some t) :
    (t.reg.fifo i).length ≤ (s.reg.fifo i).length := by
  by_cases htouch : s.touches a ≠ some i
  · rw [fifo_untouched hs htouch]
  obtain ⟨-, hs⟩ := step_cases hs
  cases a with
  | accept a =>
    cases hs
    case setFifo fd hpc =>
      simp only [Registry.fifo_setFifo]
      split
      · exact Nat.zero_le _
      · exact Nat.le_refl _
    all_goals exact Nat.le_refl _
  | handler tid a =>
    cases hs
    case eraseFifo fd hh =>
      simp only [setHandler, Registry.fifo_eraseFifo]
      split
      · exact Nat.zero_le _
      · exact Nat.le_refl _
    case data fd n con hh hc _ _ _ =>
      have hne : i ≠ fd := by
        rintro rfl
        cases h.handlers tid _ hh
      simp only [setHandler, log, Registry.fifo_append, if_neg hne]
      exact Nat.le_refl _
    all_goals exact Nat.le_refl _
  | stop a => cases hs <;> exact Nat.le_refl _
  | user v a =>
    cases hs
    case clear j hu =>
      simp only [Registry.fifo_clearFifo]
      split
      · exact Nat.zero_le _
      · exact Nat.le_refl _
    case copy c n reg bytes hu hc =>
      obtain ⟨-, -, hfifo⟩ := Registry.copy_eq_some _ _ _ hc
      simp only [setUser, log, hfifo]
      split
      · rename_i hi
        rw [hi.1, List.length_drop]
        exact Nat.sub_le _ _
      · exact Nat.le_refl _
    case sample => exact Nat.le_of_eq (congrArg List.length (Registry.fifo_sample _ _ _))
    case wait => exact Nat.le_of_eq (congrArg List.length (Registry.fifo_sample _ _ _))
    case clamp c hu => exact Nat.le_of_eq (congrArg List.length (Registry.fifo_clamp _ _ _ c.size))
    case sampled => exact Nat.le_of_eq (congrArg List.length (Registry.fifo_sample _ _ _))
    all_goals exact Nat.le_refl _
  | world a => cases hs <;> exact Nat.le_refl _

/-- The call waits for bytes that nobody will bring. -/
structure Starved (u : Tid) (c : ReadCall) (s : TCPServer) : Prop where
  inLoop : s.InLoop u c
  lacks : (s.reg.fifo c.i).length < c.size
  gone : Gone c.i s

/-- The loop is not left where bytes are lacking. -/
theorem inLoop_step {a : Act} (hb : c.blocking = true) (hin : s.InLoop u c) (hlacks : (s.reg.fifo c.i).length < c.size)
    (hs : s.step a = some t) : t.InLoop u c := by
  obtain ⟨-, hs⟩ := step_cases hs
  have hsample : (s.reg.sample c.i).2 < c.size := hlacks
  unfold InLoop at hin
  cases a with
  | accept a => cases hs <;> exact hin
  | handler tid a => cases hs <;> exact hin
  | stop a => cases hs <;> exact hin
  | world a => cases hs <;> exact hin
  | user v a =>
    by_cases hv : u = v
    · subst hv
      -- The other steps of this thread start from a place that is not in the loop.
      have hpc : ∀ pc, s.users u = pc → pc = .sample c ∨ pc = .wait c := fun pc h => h ▸ hin
      right
      cases hs
      case sample c' hu =>
        rcases hpc _ hu with h | h
        · cases h
          simp [setUser, hb, hsample]
        · cases h
      case wait c' hu =>
        rcases hpc _ hu with h | h
        · cases h
        · cases h
          simp [setUser, hsample]
      all_goals rcases hpc _ (by assumption) with h | h <;> cases h
    · unfold InLoop
      rw [UserStep.others hs hv]
      exact hin

theorem starved_step {a : Act} (hb : c.blocking = true) (h : Starved u c s) (ha : reuses c.i a = false)
    (hs : s.step a = some t) : Starved u c t where
  inLoop := inLoop_step hb h.inLoop h.lacks hs
  lacks := Nat.lt_of_le_of_lt (fifo_shrinks h.gone hs) h.lacks
  gone := gone_step h.gone ha hs

theorem starved_run (hb : c.blocking = true) (h : Starved u c s) (hbs : NoReuse c.i bs) (hrun : run step s bs = some t) :
    Starved u c t :=
  run_invariant_of_meets (fun _ _ _ => starved_step hb) h (meets_of_forall hbs) hrun

/-- The loop can always be gone through once more. -/
theorem iterates (hb : c.blocking = true) (h : Starved u c s) (hf : s.fault = none) (n : Nat) :
    ∃ t, run step s (List.replicate n (.user u .go)) = some t := by
  induction n generalizing s with
  | zero => exact ⟨s, rfl⟩
  | succ n ih =>
    have hnext : ∃ t, s.step (.user u .go) = some t ∧ t.fault = none := by
      rcases h.inLoop with hu | hu
      · simp [step, userStep, hf, hu, setUser]
      · simp [step, userStep, hf, hu, setUser]
    obtain ⟨m, hm, hfm⟩ := hnext
    obtain ⟨t, ht⟩ := ih (starved_step hb h rfl hm) hfm
    exact ⟨t, run_cons.mpr ⟨m, hm, ht⟩⟩

/-- Whatever number of iterations is allowed, so many can be made and the call is still waiting. -/
theorem not_loopExits (hb : c.blocking = true) (h : Starved u c s) (hf : s.fault = none) : ¬ s.LoopExits u c := by
  intro hexits
  obtain ⟨n, hn⟩ := hexits
  obtain ⟨t, ht⟩ := iterates hb h hf n
  have hnone : NoReuse c.i (List.replicate n (.user u .go)) := by
    intro a ha
    rw [List.eq_of_mem_replicate ha]
    rfl
  refine hn _ t hnone ht (by simp) ?_
  exact always_of_meets (fun _ _ _ => starved_step hb) (fun _ h => h.inLoop) h (meets_of_forall hnone)

/-- From the beginning of the clean-up on a call that lacks bytes is starved. -/
theorem starved_of_close {m : TCPServer} {tid : Tid} (h0 : Started s) (hrun : run step s as = some m)
    (hclose : m.handlers tid = some ⟨c.i, .close⟩) (hbs : NoReuse c.i bs) (hrun' : run step m bs = some t)
    (hin : t.InLoop u c) (hlacks : (t.reg.fifo c.i).length < c.size) : Starved u c t := by
  have hgone : Gone c.i m := gone_of_close (owned_run h0 hrun) hclose
  exact ⟨hin, hlacks, run_invariant_of_meets (fun _ _ _ => gone_step) hgone (meets_of_forall hbs) hrun'⟩

/-- A blocking call that lacks bytes when its client has gone never leaves its loop. -/
theorem wait_does_not_end {m : TCPServer} {tid : Tid} (h0 : Started s) (hrun : run step s as = some m)
    (hclose : m.handlers tid = some ⟨c.i, .close⟩) (hbs : NoReuse c.i bs) (hrun' : run step m bs = some t)
    (hf : t.fault = none) (hb : c.blocking = true) (hin : t.InLoop u c) (hlacks : (t.reg.fifo c.i).length < c.size) :
    ¬ t.LoopExits u c ∧ ∀ cs v, NoReuse c.i cs → run step t cs = some v → v.InLoop u c := by
  have hstarved : Starved u c t := starved_of_close h0 hrun hclose hbs hrun' hin hlacks
  refine ⟨not_loopExits hb hstarved hf, ?_⟩
  intro cs v hcs hv
  exact (starved_run hb hstarved hcs hv).inLoop

def starvedCall : ReadCall := ⟨4, 4, true, true⟩

/-- Four bytes are wanted, one is there, and the client closes. -/
def peerDropsMidMessage : List Act :=
  connect 4 ++ [.world (.sends 4 [1]), .handler 0 .go, .handler 0 (.data 1), .handler 0 .go, .user 0 (.read starvedCall),
    .user 0 .go, .handler 0 .go, .world (.closes 4), .handler 0 .ended]

/-- The call goes round once in the middle of it. -/
def cleanUp : List Act := [.handler 0 .go, .handler 0 .go, .user 0 .go, .handler 0 .go, .handler 0 .go]

theorem wait_does_not_end_for_a_dropped_client :
    ∃ m t, run step started peerDropsMidMessage = some m ∧ run step m cleanUp = some t ∧ ¬ t.LoopExits 0 starvedCall ∧
      ∀ cs v, NoReuse 4 cs → run step t cs = some v → v.InLoop 0 starvedCall := by
  have hmid : (run step started peerDropsMidMessage).any
      (fun m => decide (m.handlers 0 = some ⟨4, .close⟩)) = true := by decide +kernel
  have hend : ((run step started peerDropsMidMessage).bind fun m => run step m cleanUp).any
      (fun t => decide (t.fault = none ∧ t.InLoop 0 starvedCall ∧ (t.reg.fifo 4).length < 4)) = true := by decide +kernel
  obtain ⟨m, hm, hclose⟩ := (Option.any_eq_true _ _).mp hmid
  rw [hm, Option.bind_some] at hend
  obtain ⟨t, ht, hend⟩ := (Option.any_eq_true _ _).mp hend
  obtain ⟨hf, hin, hlacks⟩ := of_decide_eq_true hend
  exact ⟨m, t, hm, ht, wait_does_not_end started_started hm (of_decide_eq_true hclose) (by decide) ht hf rfl hin hlacks⟩

/-- The client is gone, and no number of iterations ends the loop. -/
theorem a_blocking_read_outlives_its_client :
    ∃ m t, run step started peerDropsMidMessage = some m ∧ run step m cleanUp = some t ∧
      t.handlers 0 = some ⟨4, .done⟩ ∧ t.users 0 = .wait starvedCall ∧ ¬ t.LoopExits 0 starvedCall := by
  have hmid : (run step started peerDropsMidMessage).any
      (fun m => decide (m.handlers 0 = some ⟨4, .close⟩)) = true := by decide +kernel
  have hend : ((run step started peerDropsMidMessage).bind fun m => run step m cleanUp).any (fun t => decide (t.fault = none ∧
      t.handlers 0 = some ⟨4, .done⟩ ∧ t.users 0 = .wait starvedCall ∧ (t.reg.fifo 4).length < 4)) = true := by
    decide +kernel
  obtain ⟨m, hm, hclose⟩ := (Option.any_eq_true _ _).mp hmid
  rw [hm, Option.bind_some] at hend
  obtain ⟨t, ht, hend⟩ := (Option.any_eq_true _ _).mp hend
  obtain ⟨hf, hdone, hwait, hlacks⟩ := of_decide_eq_true hend
  have hstarved : Starved 0 starvedCall t :=
    starved_of_close started_started hm (of_decide_eq_true hclose) (by decide) ht (Or.inr hwait) hlacks
  exact ⟨m, t, hm, ht, hdone, hwait, not_loopExits rfl hstarved hf⟩

end TCPServer

end ComClient.Server
