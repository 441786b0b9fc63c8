/-
  ComClient.Server.Shutdown — how long a `stop()` can take once it has cleared the flag.

  From then on every step of the accept thread, of a handler and of `stop()` brings the
  server closer to its end (`shutdownRank`): a handler finds the flag clear at its next
  check, the accept thread registers one more connection at most, and the loop over
  `m_threads` meets what is left in it. Only to look at an entry a second time gets
  nowhere (`idles`).

  - `stop_ends`: so the server's threads take no more than so many steps, whatever the
    clients and the callers do meanwhile; and when they can take no more, `stop()` has
    returned, unless it joins the handler of a client that neither sends nor closes, or
    the process was terminated.
-/

import ComClient.Lts.Rank
import ComClient.Server.Stop

namespace ComClient.Server.TCPServer

open ComClient.Lts

/-! ## What is left to do -/

/-- For a handler that finds the flag clear. -/
def handlerRank : HandlerPc → Nat
  | .recv => 7
  | .callback _ => 6
  | .check => 5
  | .close => 4
  | .eraseClient => 3
  | .eraseFifo => 2
  | .eraseMutex => 1
  | .done => 0

/-- For the accept thread, with the handler it may still start and the entry it may still
    make. -/
def acceptRank : AcceptPc → Nat
  | .accept => 17
  | .insertClient _ => 16
  | .setFifo _ => 15
  | .makeMutex _ => 14
  | .startThread _ => 13
  | .assign _ _ => 7
  | .notify _ => 2
  | .check => 1
  | .done => 0

/-- For `stop()`, with `n` entries in `m_threads`. -/
def stopRank (n : Nat) : StopPc → Nat
  | .begin => 4 + 2 * n
  | .loop todo => 3 + 2 * todo.length
  | .join _ _ todo => 4 + 2 * todo.length
  | .joinAccept => 2
  | .base => 1
  | _ => 0

/-- The entry is joinable, and `stop()` has not met it. -/
def unmet (s : TCPServer) (fd : Socket) : Bool :=
  (s.threads.lookup fd).join.isSome &&
    match s.stop with
    | .join g _ _ => fd != g
    | _ => true

def joins : StopPc → Bool
  | .join _ _ _ => true
  | _ => false

def rankAt (s : TCPServer) (tid : Tid) : Nat := (s.handlers tid).elim 0 fun h => handlerRank h.pc

def handlersLeft (s : TCPServer) : Nat := (Finset.range s.next).sum s.rankAt

def shutdownRank (s : TCPServer) : Nat :=
  s.handlersLeft + acceptRank s.accept + stopRank s.threads.keys.length s.stop + 2 * s.threads.keys.countP s.unmet +
    if s.fault.isSome then 0 else 1

/-- `stop()` looks at an entry that is not in its loop, or no longer, and that holds no
    thread. -/
def idles (s : TCPServer) : Act → Bool
  | .stop (.visit fd) =>
    match s.stop with
    | .loop todo => fd ∉ todo && (s.threads.lookup fd).join.isNone
    | _ => false
  | _ => false

/-- A step of the server's threads that gets somewhere. -/
def moves (s : TCPServer) (a : Act) : Bool := isServer a && !s.idles a

variable {s t : TCPServer} {as bs : List Act}

/-! ## Handlers -/

/-- A step in which one handler moves. -/
theorem handlersLeft_move {tid : Tid} {fd : Socket} {pc pc' : HandlerPc} (hn : t.next = s.next) (htid : tid < s.next)
    (hpc : s.handlers tid = some ⟨fd, pc⟩) (hup : t.handlers = upd s.handlers tid (some ⟨fd, pc'⟩)) :
    t.handlersLeft + handlerRank pc = s.handlersLeft + handlerRank pc' := by
  have hmem : tid ∈ Finset.range s.next := Finset.mem_range.mpr htid
  have hrest : ∀ g, g ≠ tid → t.rankAt g = s.rankAt g := by
    intro g hg
    rw [rankAt, rankAt, hup, upd_ne _ _ hg]
  have hs : s.rankAt tid = handlerRank pc := by rw [rankAt, hpc, Option.elim_some]
  have ht : t.rankAt tid = handlerRank pc' := by rw [rankAt, hup, upd_same, Option.elim_some]
  have hsum : ((Finset.range s.next).erase tid).sum t.rankAt = ((Finset.range s.next).erase tid).sum s.rankAt :=
    Finset.sum_congr rfl fun g hg => hrest g (Finset.ne_of_mem_erase hg)
  have hbefore : s.rankAt tid + ((Finset.range s.next).erase tid).sum s.rankAt = s.handlersLeft :=
    Finset.add_sum_erase _ s.rankAt hmem
  have hafter : t.rankAt tid + ((Finset.range s.next).erase tid).sum t.rankAt = t.handlersLeft := by
    rw [handlersLeft, hn]
    exact Finset.add_sum_erase _ t.rankAt hmem
  omega

theorem handlersLeft_congr (hn : t.next = s.next) (hh : t.handlers = s.handlers) : t.handlersLeft = s.handlersLeft := by
  unfold handlersLeft rankAt
  rw [hn, hh]

/-- A handler more, at its first check. -/
theorem handlersLeft_start {fd : Socket} (hn : t.next = s.next + 1)
    (hup : t.handlers = upd s.handlers s.next (some ⟨fd, .check⟩)) : t.handlersLeft = s.handlersLeft + 5 := by
  have hnew : t.rankAt s.next = 5 := by rw [rankAt, hup, upd_same]; rfl
  have hold : (Finset.range s.next).sum t.rankAt = s.handlersLeft := by
    refine Finset.sum_congr rfl ?_
    intro g hg
    rw [rankAt, rankAt, hup, upd_ne _ _ (Nat.ne_of_lt (Finset.mem_range.mp hg))]
  rw [handlersLeft, hn, Finset.sum_range_succ, hold, hnew]

/-! ## Entries -/

theorem unmet_congr (ht : t.threads = s.threads) (hs : t.stop = s.stop) : t.unmet = s.unmet := by
  funext fd
  rw [unmet, unmet, ht, hs]

theorem unmet_of_not_joins (h : joins s.stop = false) {fd : Socket} :
    s.unmet fd = (s.threads.lookup fd).join.isSome := by
  unfold unmet
  cases hpc : s.stop with
  | join g tid l =>
    rw [hpc] at h
    cases h
  | _ => exact Bool.and_true _

/-- One entry is put in place. -/
theorem countP_insert {fd : Socket} {e : Option Tid} (ht : t.threads = s.threads.insert fd e)
    (hrest : ∀ g, g ≠ fd → t.unmet g = s.unmet g) :
    t.threads.keys.countP t.unmet ≤ s.threads.keys.countP s.unmet + if t.unmet fd then 1 else 0 := by
  have hnodup : (s.threads.keys.erase fd).Nodup := s.threads.keys_nodup.erase fd
  have hcount : (s.threads.keys.erase fd).countP t.unmet ≤ s.threads.keys.countP s.unmet := by
    have hsame : (s.threads.keys.erase fd).countP t.unmet = (s.threads.keys.erase fd).countP s.unmet := by
      refine List.countP_congr ?_
      intro g hg
      rw [hrest g ((List.Nodup.mem_erase_iff s.threads.keys_nodup).mp hg).1]
    rw [hsame]
    exact List.erase_sublist.countP_le
  rw [ht, AList.keys_insert, List.countP_cons]
  omega

theorem length_keys_insert {fd : Socket} {e : Option Tid} (ht : t.threads = s.threads.insert fd e) :
    t.threads.keys.length ≤ s.threads.keys.length + 1 := by
  rw [ht, AList.keys_insert, List.length_cons]
  have hle := List.Sublist.length_le (List.erase_sublist : (s.threads.keys.erase fd).Sublist s.threads.keys)
  omega

theorem stopRank_mono {m n : Nat} (h : m ≤ n + 1) (pc : StopPc) : stopRank m pc ≤ stopRank n pc + 2 := by
  cases pc <;> simp only [stopRank] <;> omega

/-! ## Every move lowers the rank -/

/-- The flag has been cleared by `stop()`. -/
structure Closing (s : TCPServer) : Prop where
  owned : Owned s
  cleared : s.running = false
  past : flagSet s.stop = false

/-- A step that leaves `stop()` and the entries where they are. -/
theorem shutdownRank_lt (ht : t.threads = s.threads) (hs : t.stop = s.stop) (hf : t.fault = s.fault)
    (h : t.handlersLeft + acceptRank t.accept < s.handlersLeft + acceptRank s.accept) :
    t.shutdownRank < s.shutdownRank := by
  unfold shutdownRank
  rw [unmet_congr ht hs, ht, hs, hf]
  omega

/-- A step of the accept thread alone. -/
theorem rank_accept {pc pc' : AcceptPc} (hpc : s.accept = pc) (ht : t.threads = s.threads) (hs : t.stop = s.stop)
    (hf : t.fault = s.fault) (hn : t.next = s.next) (hh : t.handlers = s.handlers) (ha : t.accept = pc')
    (h : acceptRank pc' < acceptRank pc) : t.shutdownRank < s.shutdownRank := by
  refine shutdownRank_lt ht hs hf ?_
  rw [handlersLeft_congr hn hh, hpc, ha]
  omega

/-- The accept thread enters a thread in `m_threads`. -/
theorem rank_assign {fd : Socket} {tid : Tid} (hpc : s.accept = .assign fd tid) :
    shutdownRank { s with threads := s.threads.insert fd (some tid), accept := .notify fd } < s.shutdownRank := by
  have hcount := countP_insert (s := s) (t := { s with threads := s.threads.insert fd (some tid), accept := .notify fd }) rfl
    fun g hg => by simp only [unmet, AList.lookup_insert_ne hg]
  have hlen := stopRank_mono (length_keys_insert (s := s)
    (t := { s with threads := s.threads.insert fd (some tid), accept := .notify fd }) rfl) s.stop
  have hone : (if unmet { s with threads := s.threads.insert fd (some tid), accept := .notify fd } fd then 1 else 0) ≤ 1 := by
    split <;> omega
  have hleft : handlersLeft { s with threads := s.threads.insert fd (some tid), accept := .notify fd } = s.handlersLeft :=
    handlersLeft_congr rfl rfl
  unfold shutdownRank
  simp only [hpc, acceptRank, hleft] at hcount hlen ⊢
  omega

theorem rank_acceptStep {a : AcceptAct} (h : Closing s) (hf : s.fault = none) (hs : AcceptStep s a t) :
    t.shutdownRank < s.shutdownRank := by
  cases hs with
  | startThread fd hpc =>
    refine shutdownRank_lt rfl rfl rfl ?_
    have hstart : handlersLeft { s.setHandler s.next ⟨fd, .check⟩ with next := s.next + 1, accept := .assign fd s.next } =
        s.handlersLeft + 5 := handlersLeft_start rfl rfl
    rw [hstart, hpc]
    simp only [acceptRank]
    omega
  | assign fd tid hpc hnone => exact rank_assign hpc
  | terminate fd tid old hpc hold =>
    have hsame : unmet { s with fault := some .terminate } = s.unmet := unmet_congr rfl rfl
    have hleft : handlersLeft { s with fault := some .terminate } = s.handlersLeft := handlersLeft_congr rfl rfl
    unfold shutdownRank
    simp only [hsame, hleft, hf, Option.isSome_some, Option.isSome_none, if_true, Bool.false_eq_true, if_false]
    omega
  | check hpc =>
    have hdone : (if s.running then AcceptPc.accept else .done) = .done := by simp [h.cleared]
    exact rank_accept hpc rfl rfl rfl rfl rfl hdone (by decide)
  | error e hpc =>
    refine rank_accept hpc rfl rfl rfl rfl rfl rfl ?_
    split <;> simp [acceptRank]
  | insertClient fd hpc => exact rank_accept hpc rfl rfl rfl rfl rfl rfl (Nat.lt_succ_self _)
  | setFifo fd hpc => exact rank_accept hpc rfl rfl rfl rfl rfl rfl (Nat.lt_succ_self _)
  | makeMutex fd hpc => exact rank_accept hpc rfl rfl rfl rfl rfl rfl (Nat.lt_succ_self _)
  | notify fd hpc => exact rank_accept hpc rfl rfl rfl rfl rfl rfl (Nat.lt_succ_self _)
  | connection fd hpc hfree => exact rank_accept hpc rfl rfl rfl rfl rfl rfl (Nat.lt_succ_self _)

theorem rank_handlerStep {tid : Tid} {a : HandlerAct} (h : Closing s) (hs : HandlerStep s tid a t) :
    t.shutdownRank < s.shutdownRank := by
  have hsame := HandlerStep.same hs
  have hlower : ∃ fd pc pc', s.handlers tid = some ⟨fd, pc⟩ ∧ handlerRank pc' < handlerRank pc ∧
      t.handlers = upd s.handlers tid (some ⟨fd, pc'⟩) := by
    cases hs with
    | check fd hh => exact ⟨fd, _, _, hh, by rw [h.cleared]; decide, rfl⟩
    | failed fd e hh hc =>
      refine ⟨fd, _, _, hh, ?_, rfl⟩
      split <;> decide
    | callback fd chunk hh => exact ⟨fd, _, _, hh, Nat.lt_succ_self _, rfl⟩
    | close fd hh => exact ⟨fd, _, _, hh, Nat.lt_succ_self _, rfl⟩
    | eraseClient fd hh => exact ⟨fd, _, _, hh, Nat.lt_succ_self _, rfl⟩
    | eraseFifo fd hh => exact ⟨fd, _, _, hh, Nat.lt_succ_self _, rfl⟩
    | eraseMutex fd hh => exact ⟨fd, _, _, hh, Nat.lt_succ_self _, rfl⟩
    | data fd n c hh hc h0 hn hlen => exact ⟨fd, _, _, hh, Nat.lt_succ_self _, rfl⟩
    | closed fd hh hc => exact ⟨fd, _, _, hh, by decide, rfl⟩
  obtain ⟨fd, pc, pc', hpc, hlt, hup⟩ := hlower
  have htid : tid < s.next := by
    by_contra hge
    rw [h.owned.unused tid (Nat.le_of_not_lt hge)] at hpc
    cases hpc
  have hmove := handlersLeft_move hsame.next htid hpc hup
  refine shutdownRank_lt hsame.threads hsame.stop (HandlerStep.fault hs) ?_
  rw [hsame.accept]
  omega

/-- A step of `stop()` alone. -/
theorem rank_stop {pc pc' : StopPc} (hpc : s.stop = pc) (hpc' : t.stop = pc')
    (hlt : stopRank t.threads.keys.length pc' + 2 * t.threads.keys.countP t.unmet <
      stopRank s.threads.keys.length pc + 2 * s.threads.keys.countP s.unmet)
    (hn : t.next = s.next) (hh : t.handlers = s.handlers) (ha : t.accept = s.accept) (hf : t.fault = s.fault) :
    t.shutdownRank < s.shutdownRank := by
  unfold shutdownRank
  rw [handlersLeft_congr hn hh, ha, hf, hpc, hpc']
  omega

/-- A step of `stop()` that neither comes to a join nor from one. -/
theorem rank_goto {pc pc' : StopPc} (hpc : s.stop = pc) (hno : joins pc = false) (hno' : joins pc' = false)
    (hlt : stopRank s.threads.keys.length pc' < stopRank s.threads.keys.length pc) (hpc' : t.stop = pc')
    (ht : t.threads = s.threads) (hn : t.next = s.next) (hh : t.handlers = s.handlers) (ha : t.accept = s.accept)
    (hf : t.fault = s.fault) : t.shutdownRank < s.shutdownRank := by
  refine rank_stop hpc hpc' ?_ hn hh ha hf
  have hsame : t.unmet = s.unmet := by
    funext g
    rw [unmet_of_not_joins (hpc' ▸ hno'), unmet_of_not_joins (hpc ▸ hno), ht]
  rw [hsame, ht]
  omega

/-- `stop()` comes to the join of an entry that it had not met. -/
theorem countP_visit {fd : Socket} {tid : Tid} {l : List Socket} (l' : List Socket) (hpc : s.stop = .loop l)
    (hj : s.Joinable fd tid) :
    s.threads.keys.countP (unmet { s with stop := .join fd tid l' }) + 1 = s.threads.keys.countP s.unmet := by
  have hmem : fd ∈ s.threads.keys :=
    AList.mem_keys.mp (AList.lookup_isSome.mp (Option.isSome_iff_exists.mpr ⟨_, hj⟩))
  have hperm := List.perm_cons_erase hmem
  have hbefore : s.unmet fd = true := by
    rw [unmet, hpc, show s.threads.lookup fd = some (some tid) from hj]
    rfl
  have hafter : unmet { s with stop := .join fd tid l' } fd = false := by simp [unmet]
  have hrest : (s.threads.keys.erase fd).countP (unmet { s with stop := .join fd tid l' }) =
      (s.threads.keys.erase fd).countP s.unmet := by
    refine List.countP_congr ?_
    intro g hg
    have hne : g ≠ fd := ((List.Nodup.mem_erase_iff s.threads.keys_nodup).mp hg).1
    simp [unmet, hpc, hne]
  rw [hperm.countP_eq, hperm.countP_eq, List.countP_cons, List.countP_cons, hrest, hbefore, hafter]
  simp

theorem rank_stopStep {a : StopAct} (h : Closing s) (hs : StopStep s a t) (hmove : s.idles (.stop a) = false) :
    t.shutdownRank < s.shutdownRank := by
  have hpast : ∀ {pc : StopPc}, s.stop = pc → flagSet pc = false := by
    intro x heq
    subst heq
    exact h.past
  cases hs with
  | call hpc => cases hpast hpc
  | check hpc => cases hpast hpc
  | clear hpc => cases hpast hpc
  | begin hpc =>
    refine rank_goto hpc rfl rfl ?_ rfl rfl rfl rfl rfl rfl
    simp only [stopRank]
    omega
  | joined hpc => exact rank_goto hpc rfl rfl (Nat.lt_succ_self _) rfl rfl rfl rfl rfl rfl
  | joinAccept hpc hj hd => exact rank_goto hpc rfl rfl (Nat.lt_succ_self _) rfl rfl rfl rfl rfl rfl
  | noAccept hpc hj => exact rank_goto hpc rfl rfl (Nat.lt_succ_self _) rfl rfl rfl rfl rfl rfl
  | base hpc => exact rank_goto hpc rfl rfl (Nat.lt_succ_self _) rfl rfl rfl rfl rfl rfl
  | join fd tid l g hpc hdone =>
    have hcount := countP_insert (s := s) (t := { s with threads := s.threads.insert fd none, stop := .loop l }) rfl
      fun g hg => by simp [unmet, hpc, hg, AList.lookup_insert_ne hg]
    have hnone : unmet { s with threads := s.threads.insert fd none, stop := .loop l } fd = false := by simp [unmet]
    rw [hnone] at hcount
    refine rank_stop hpc rfl ?_ rfl rfl rfl rfl
    simp only [stopRank, Bool.false_eq_true, if_false] at hcount ⊢
    omega
  | visit fd tid l hpc hj =>
    have hcount := countP_visit (l.erase fd) hpc hj
    have hle : (l.erase fd).length ≤ l.length := List.erase_sublist.length_le
    refine rank_stop hpc rfl ?_ rfl rfl rfl rfl
    simp only [stopRank]
    omega
  | skip fd l hpc hl =>
    have hmem : fd ∈ l := by simpa [idles, hpc, hl] using hmove
    have hlen := List.length_erase_of_mem hmem
    have hpos := List.length_pos_of_mem hmem
    refine rank_goto hpc rfl rfl ?_ rfl rfl rfl rfl rfl rfl
    simp only [stopRank]
    omega

/-- To look at an entry again gets nowhere, but not back. -/
theorem rank_idle {a : StopAct} (hs : StopStep s a t) (hidle : s.idles (.stop a) = true) :
    t.shutdownRank ≤ s.shutdownRank := by
  cases hs
  case skip fd l hpc hl =>
    have hnot : fd ∉ l := by simpa [idles, hpc, hl] using hidle
    rw [List.erase_of_not_mem hnot, ← hpc]
  case visit fd tid l hpc hj =>
    rw [Joinable] at hj
    simp [idles, hpc, hj] at hidle
  all_goals cases hidle

/-- Callers and the world change nothing of it; a caller may end it by a fault. -/
theorem rank_same (hs : Same s t) (hh : t.handlers = s.handlers) (hf : s.fault = none) :
    t.shutdownRank ≤ s.shutdownRank := by
  unfold shutdownRank
  rw [handlersLeft_congr hs.next hh, unmet_congr hs.threads hs.stop, hs.threads, hs.accept, hs.stop, hf]
  split <;> simp

/-! ## Runs -/

/-- Once `stop()` is past the flag, it is clear. -/
def Cleared (s : TCPServer) : Prop := flagSet s.stop = false → s.running = false

theorem cleared_step {a : Act} (h : Cleared s) (hs : s.step a = some t) : Cleared t := by
  obtain ⟨-, hs⟩ := step_cases hs
  unfold Cleared at h ⊢
  cases a with
  | accept a =>
    obtain ⟨hr, hstop, -, -⟩ := AcceptStep.stop hs
    rw [hr, hstop]
    exact h
  | handler tid a => rw [(HandlerStep.same hs).running, (HandlerStep.same hs).stop]; exact h
  | user u a => rw [(UserStep.same hs).running, (UserStep.same hs).stop]; exact h
  | world a => rw [(WorldStep.same hs).running, (WorldStep.same hs).stop]; exact h
  | stop a =>
    have hkept : ∀ {pc : StopPc}, s.stop = pc → flagSet pc = false → s.running = false := by
      intro x heq
      subst heq
      exact h
    cases hs with
    | call hpc => exact nofun
    | check hpc =>
      intro hp
      dsimp only at hp ⊢
      split at hp
      · cases hp
      · rename_i hr
        exact Bool.eq_false_iff.mpr hr
    | clear hpc => exact fun _ => rfl
    | base hpc => exact fun _ => rfl
    | begin hpc => exact fun _ => hkept hpc rfl
    | joined hpc => exact fun _ => hkept hpc rfl
    | join fd tid l g hpc hdone => exact fun _ => hkept hpc rfl
    | joinAccept hpc hj hd => exact fun _ => hkept hpc rfl
    | noAccept hpc hj => exact fun _ => hkept hpc rfl
    | visit fd tid l hpc hj => exact fun _ => hkept hpc rfl
    | skip fd l hpc hl => exact fun _ => hkept hpc rfl

theorem flagSet_step {a : Act} (h : flagSet s.stop = false) (hs : s.step a = some t) : flagSet t.stop = false := by
  obtain ⟨-, hs⟩ := step_cases hs
  cases a with
  | accept a => rw [(AcceptStep.stop hs).2.1]; exact h
  | handler tid a => rw [(HandlerStep.same hs).stop]; exact h
  | user u a => rw [(UserStep.same hs).stop]; exact h
  | world a => rw [(WorldStep.same hs).stop]; exact h
  | stop a =>
    cases hs
    case call hpc => rw [hpc] at h; cases h
    case check hpc => rw [hpc] at h; cases h
    all_goals rfl

theorem closing_step {a : Act} (h : Closing s) (hs : s.step a = some t) : Closing t := by
  have hpast := flagSet_step h.past hs
  exact ⟨owned_step h.owned hs, cleared_step (fun _ => h.cleared) hs hpast, hpast⟩

theorem closing_lowers (s : TCPServer) (a : Act) (t : TCPServer) (h : Closing s) (hs : s.step a = some t) :
    Lowers moves Closing shutdownRank s a t := by
  have hnext := closing_step h hs
  obtain ⟨hf, hs⟩ := step_cases hs
  cases a with
  | accept a =>
    have hlt := rank_acceptStep h hf hs
    exact ⟨hnext, Nat.le_of_lt hlt, fun _ => hlt⟩
  | handler tid a =>
    have hlt := rank_handlerStep h hs
    exact ⟨hnext, Nat.le_of_lt hlt, fun _ => hlt⟩
  | stop a =>
    cases hidle : s.idles (.stop a) with
    | true => exact ⟨hnext, rank_idle hs hidle, fun hmove => by simp [moves, hidle] at hmove⟩
    | false =>
      have hlt := rank_stopStep h hs hidle
      exact ⟨hnext, Nat.le_of_lt hlt, fun _ => hlt⟩
  | user u a => exact ⟨hnext, rank_same (UserStep.same hs) (UserStep.handlers hs) hf, fun hmove => by cases hmove⟩
  | world a => exact ⟨hnext, rank_same (WorldStep.same hs) (WorldStep.handlers hs) hf, fun hmove => by cases hmove⟩

/-- When `stop()` has just cleared the flag. -/
theorem shutdownRank_begin (hpc : s.stop = .begin) : s.shutdownRank ≤ 7 * s.next + 4 * s.threads.keys.length + 22 := by
  have hhandlers : s.handlersLeft ≤ 7 * s.next := by
    have hle : ∀ tid ∈ Finset.range s.next, s.rankAt tid ≤ 7 := by
      intro tid _
      unfold rankAt
      cases s.handlers tid with
      | none => exact Nat.zero_le _
      | some h =>
        obtain ⟨fd, pc⟩ := h
        cases pc <;> simp [handlerRank]
    have hsum := Finset.sum_le_card_nsmul _ _ 7 hle
    rw [Finset.card_range, smul_eq_mul, Nat.mul_comm] at hsum
    exact hsum
  have haccept : acceptRank s.accept ≤ 17 := by cases s.accept <;> simp [acceptRank]
  have hcount : s.threads.keys.countP s.unmet ≤ s.threads.keys.length := List.countP_le_length
  unfold shutdownRank
  rw [hpc]
  simp only [stopRank]
  split <;> omega

/-- The loop over `m_threads` can go on to an entry it has not met, or to its end. -/
theorem loop_moves (hn : Named s) {l : List Socket} (hpc : s.stop = .loop l) :
    ∃ a, s.idles (.stop a) = false ∧ s.stopStep a ≠ none := by
  cases l with
  | nil => exact ⟨.go, rfl, by simp [stopStep, hpc]⟩
  | cons fd l =>
    have hmem : fd ∈ s.threads := hn.todo fd (by rw [hpc]; exact List.mem_cons_self)
    obtain ⟨e, he⟩ := Option.isSome_iff_exists.mp (AList.lookup_isSome.mpr hmem)
    refine ⟨.visit fd, by simp [idles, hpc], ?_⟩
    cases e <;> simp [stopStep, hpc, he]

/-- Where none of its moves is possible, `stop()` joins a handler that has not ended. -/
theorem stop_of_no_move (hn : Named s) (hpast : flagSet s.stop = false) (hinside : s.stop ≠ .returned)
    (haccept : s.accept = .done) (hblocked : ∀ a, s.idles (.stop a) = false → s.stopStep a = none) :
    ∃ fd tid l h, s.stop = .join fd tid l ∧ s.handlers tid = some h ∧ h.pc ≠ .done := by
  have hentered : s.stop ≠ .idle := by
    intro hpc
    rw [hpc] at hpast
    cases hpast
  have hloop : ∀ l, s.stop ≠ .loop l := by
    intro l hpc
    obtain ⟨a, hidle, ha⟩ := loop_moves hn hpc
    exact ha (hblocked a hidle)
  refine stop_of_blocked hn hentered hinside haccept fun a => hblocked a ?_
  cases a with
  | call => rfl
  | go => rfl
  | visit fd =>
    unfold idles
    cases hpc : s.stop with
    | loop l => exact absurd hpc (hloop l)
    | _ => rfl

/-- Once `stop()` has cleared the flag, the accept thread, the handlers and `stop()` make no more
    than so many moves, whatever the clients and the callers do; and when they can make no
    more, the process was terminated, or `stop()` has returned, or it joins the handler of a
    client that neither sends nor closes. -/
theorem stop_ends {u : TCPServer} (h0 : Started s) (hrun : run step s as = some t) (hbegin : t.stop = .begin)
    (hrun' : run step t bs = some u) :
    counted step moves t bs ≤ 7 * t.next + 4 * t.threads.keys.length + 22 ∧
      ((∀ a, u.moves a = true → u.step a = none) →
        u.fault ≠ none ∨ u.stop = .returned ∨ ∃ fd tid l, u.stop = .join fd tid l ∧ u.Waiting tid) := by
  have hcleared : Cleared t := by
    refine run_invariant (fun _ _ _ => cleared_step) ?_ hrun
    intro hp
    rw [h0.stop] at hp
    cases hp
  have hpast : flagSet t.stop = false := by rw [hbegin]; rfl
  have hclosing : Closing t := ⟨owned_run h0 hrun, hcleared hpast, hpast⟩
  have hcount := counted_add_rank_le closing_lowers hclosing hrun'
  have hfirst := shutdownRank_begin hbegin
  refine ⟨by omega, ?_⟩
  intro hblocked
  have hall : run step s (as ++ bs) = some u := run_append.mpr ⟨t, hrun, hrun'⟩
  have hu : Closing u := run_invariant (fun _ _ _ => closing_step) hclosing hrun'
  by_contra hne
  simp only [not_or, not_not] at hne
  obtain ⟨hf, hinside, hsilent⟩ := hne
  have hstep : ∀ a, u.moves a = true → _ := fun a ha => (step_of_alive hf a).symm.trans (hblocked a ha)
  have haccept : u.accept = .done := by
    by_contra hpc
    obtain ⟨a, ha⟩ := accept_enabled hpc
    exact ha (hstep (.accept a) rfl)
  obtain ⟨fd, tid, l, h, hjoin, hh, hpc⟩ := stop_of_no_move (named_run h0 hall) hu.past hinside haccept
    fun a ha => hstep (.stop a) (by rw [moves, ha]; rfl)
  have hwait := (handler_of_blocked hu.owned hh fun a => hstep (.handler tid a) rfl).resolve_left hpc
  exact hsilent ⟨fd, tid, l, hjoin, hwait⟩

/-- One client that says nothing, and `stop()` up to where it clears the flag. -/
def upToTheFlag : List Act := connect 4 ++ [.handler 0 .go, .stop .call, .stop .go, .stop .go]

theorem stop_ends_for_one_client :
    ∃ t u, run step started upToTheFlag = some t ∧
      run step t [.stop .go, .stop (.visit 4), .accept .go, .accept .go] = some u ∧
      counted step moves t [.stop .go, .stop (.visit 4), .accept .go, .accept .go] ≤
        7 * t.next + 4 * t.threads.keys.length + 22 ∧
      ((∀ a, u.moves a = true → u.step a = none) →
        u.fault ≠ none ∨ u.stop = .returned ∨ ∃ fd tid l, u.stop = .join fd tid l ∧ u.Waiting tid) := by
  have hrun : (run step started upToTheFlag).map (·.stop) = some .begin := by decide +kernel
  obtain ⟨t, ht, hbegin⟩ := Option.map_eq_some_iff.mp hrun
  have hmore : ((run step started upToTheFlag).bind fun t =>
      run step t [.stop .go, .stop (.visit 4), .accept .go, .accept .go]).isSome := by decide +kernel
  rw [ht, Option.bind_some] at hmore
  obtain ⟨u, hu⟩ := Option.isSome_iff_exists.mp hmore
  exact ⟨t, u, ht, hu, stop_ends started_started ht hbegin hu⟩

end ComClient.Server.TCPServer
