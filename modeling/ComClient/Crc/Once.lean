/-
  ComClient.Crc.Once — the checksum table of a process whose threads build clients and
  compute checksums at the same time (`src/src/com_client.cpp`: the constructor,
  `mk_crctable`, `CRC`).

  The table is filled by the initialiser of a static local, `once`: the first thread that
  comes to its declaration runs it, and the others wait there until it is done. Each store
  into the table and each round of `CRC`, which reads one entry, is one step; the process
  starts with a table of zeros.

  - `sums_are_right`: whoever has a client finds the whole table, which does not change any
    more, and every `CRC` returns what it would return alone.
  - `table_is_filled_once`: the initialiser makes 257 steps at most in the whole process, and
    as long as a constructor waits, it can make the next one.
-/

import ComClient.Crc.Code
import ComClient.Lts.Rank

namespace ComClient.Crc.Once

open ComClient.Transport ComClient.Lts

abbrev Tid := Nat

/-- Where a thread is. -/
inductive Pc where
  | idle
  /-- In a constructor, at the declaration of `once`. -/
  | enter
  /-- In the initialiser, with the loop at `data`. -/
  | fill (data : Nat)
  /-- It has a client. -/
  | ready
  /-- In `CRC`, with the loop at `i`. -/
  | crc (buf : Mem) (n : Int) (i : Nat) (acc : BitVec 16)

/-- The guard of `once`; who runs the initialiser is for the proofs only. -/
inductive Guard where
  | untouched
  | running (u : Tid)
  | done
  deriving DecidableEq, Repr

/-- A `CRC` that has returned. -/
structure Sum where
  buf : Mem
  n : Int
  value : BitVec 16

structure Process where
  table : List (BitVec 16)
  guard : Guard
  pcs : Tid → Pc
  sums : List Sum

inductive Act where
  | construct (u : Tid)
  | call (u : Tid) (buf : Mem) (n : Int)
  | go (u : Tid)

namespace Process

/-- No client has been built. -/
def start : Process := ⟨List.replicate 256 0#16, .untouched, fun _ => .idle, []⟩

def goto (s : Process) (u : Tid) (pc : Pc) : Process := { s with pcs := Function.update s.pcs u pc }

/-- The entry that the initialiser stores at `data`. -/
def entry (data : Nat) : BitVec 16 := entryLoop 0x1021#16 8 (BitVec.ofNat 16 data <<< 8) 0#16

def step (s : Process) : Act → Option Process
  | .construct u =>
    match s.pcs u with
    | .idle => some (s.goto u .enter)
    | .ready => some (s.goto u .enter)
    | _ => none
  | .call u buf n =>
    match s.pcs u with
    | .ready => some (s.goto u (.crc buf n 0 0#16))
    | _ => none
  | .go u =>
    match s.pcs u with
    | .enter =>
      match s.guard with
      | .untouched => some ({ s with guard := .running u }.goto u (.fill 0))
      | .running _ => none
      | .done => some (s.goto u .ready)
    | .fill data =>
      if data < 256 then some ({ s with table := s.table.set data (entry data) }.goto u (.fill (data + 1)))
      else some ({ s with guard := .done }.goto u .ready)
    | .crc buf n i acc =>
      if (i : Int) < n then some (s.goto u (.crc buf n (i + 1) (crcRound s.table acc (buf i))))
      else some ({ s with sums := s.sums ++ [(⟨buf, n, (acc >>> 8) ||| (acc <<< 8)⟩ : Sum)] }.goto u .ready)
    | .idle => none
    | .ready => none

variable {s t u : Process} {as bs : List Act}

/-! ## What a step can do -/

inductive Step (s : Process) (v : Tid) : Act → Process → Prop
  | construct : s.pcs v = .idle ∨ s.pcs v = .ready → Step s v (.construct v) (s.goto v .enter)
  | call (buf : Mem) (n : Int) : s.pcs v = .ready → Step s v (.call v buf n) (s.goto v (.crc buf n 0 0#16))
  | first : s.pcs v = .enter → s.guard = .untouched →
      Step s v (.go v) ({ s with guard := .running v }.goto v (.fill 0))
  | later : s.pcs v = .enter → s.guard = .done → Step s v (.go v) (s.goto v .ready)
  | fill (data : Nat) : s.pcs v = .fill data → data < 256 →
      Step s v (.go v) ({ s with table := s.table.set data (entry data) }.goto v (.fill (data + 1)))
  | filled (data : Nat) : s.pcs v = .fill data → 256 ≤ data →
      Step s v (.go v) ({ s with guard := .done }.goto v .ready)
  | round (buf : Mem) (n : Int) (i : Nat) (acc : BitVec 16) : s.pcs v = .crc buf n i acc → (i : Int) < n →
      Step s v (.go v) (s.goto v (.crc buf n (i + 1) (crcRound s.table acc (buf i))))
  | sum (buf : Mem) (n : Int) (i : Nat) (acc : BitVec 16) : s.pcs v = .crc buf n i acc → n ≤ i →
      Step s v (.go v) ({ s with sums := s.sums ++ [(⟨buf, n, (acc >>> 8) ||| (acc <<< 8)⟩ : Sum)] }.goto v .ready)

theorem step_cases {a : Act} (h : s.step a = some t) : ∃ v, Step s v a t := by
  cases a with
  | construct v =>
    refine ⟨v, ?_⟩
    simp only [step] at h
    split at h
    · rename_i hpc; cases h; exact .construct (Or.inl hpc)
    · rename_i hpc; cases h; exact .construct (Or.inr hpc)
    · cases h
  | call v buf n =>
    refine ⟨v, ?_⟩
    simp only [step] at h
    split at h
    · rename_i hpc; cases h; exact .call buf n hpc
    · cases h
  | go v =>
    refine ⟨v, ?_⟩
    simp only [step] at h
    split at h
    · rename_i hpc
      split at h
      · rename_i hg; cases h; exact .first hpc hg
      · cases h
      · rename_i hg; cases h; exact .later hpc hg
    · rename_i data hpc
      split at h
      · rename_i hlt; cases h; exact .fill data hpc hlt
      · rename_i hge; cases h; exact .filled data hpc (Nat.le_of_not_lt hge)
    · rename_i buf n i acc hpc
      split at h
      · rename_i hlt; cases h; exact .round buf n i acc hpc hlt
      · rename_i hge; cases h; exact .sum buf n i acc hpc (Int.not_lt.mp hge)
    · cases h
    · cases h

/-! ## The table -/

/-- The table when the initialiser's loop is at `data`. -/
def filledTo (data : Nat) : List (BitVec 16) := sCrctable.take data ++ List.replicate (256 - data) 0#16

theorem length_sCrctable : sCrctable.length = 256 := by simp [sCrctable, mkCrctable]

theorem filledTo_zero : filledTo 0 = List.replicate 256 0#16 := rfl

theorem filledTo_all : filledTo 256 = sCrctable := by
  rw [filledTo, List.take_of_length_le (Nat.le_of_eq length_sCrctable), Nat.sub_self, List.replicate_zero,
    List.append_nil]

theorem filledTo_succ {data : Nat} (h : data < 256) : (filledTo data).set data (entry data) = filledTo (data + 1) := by
  have hlen : (sCrctable.take data).length = data := by
    rw [List.length_take, length_sCrctable]
    omega
  have hin : data < sCrctable.length := by
    rw [length_sCrctable]
    exact h
  have hentry : sCrctable[data] = entry data := by simp [sCrctable, mkCrctable, entry]
  have hrest : 256 - data = (256 - (data + 1)) + 1 := by omega
  rw [filledTo, filledTo, List.set_append_right _ _ (Nat.le_of_eq hlen), hlen, Nat.sub_self, hrest, List.replicate_succ,
    List.set_cons_zero, List.take_succ_eq_append_getElem hin, hentry, List.append_assoc]
  rfl

/-! ## What holds at any time -/

/-- The thread has a client. -/
def made : Pc → Bool
  | .ready => true
  | .crc _ _ _ _ => true
  | _ => false

structure Inv (s : Process) : Prop where
  untouched : s.guard = .untouched → s.table = filledTo 0
  running : ∀ v, s.guard = .running v → ∃ data ≤ 256, s.pcs v = .fill data ∧ s.table = filledTo data
  done : s.guard = .done → s.table = sCrctable
  filling : ∀ v data, s.pcs v = .fill data → s.guard = .running v
  made : ∀ v, made (s.pcs v) = true → s.guard = .done
  inside : ∀ v buf n i acc, s.pcs v = .crc buf n i acc → i ≤ n.toNat ∧ acc = crcFold sCrctable buf i
  sums : ∀ r ∈ s.sums, r.value = crc sCrctable r.buf r.n

theorem inv_start : Inv start where
  untouched _ := filledTo_zero.symm
  running _ h := by cases h
  done h := by cases h
  filling _ _ h := by cases h
  made _ h := by cases h
  inside _ _ _ _ _ h := by cases h
  sums r h := by cases h

theorem goto_same (s : Process) (v : Tid) (pc : Pc) : (s.goto v pc).pcs v = pc := by simp [goto]

theorem goto_ne {v w : Tid} (h : w ≠ v) (s : Process) (pc : Pc) : (s.goto v pc).pcs w = s.pcs w := by
  simp [goto, h]

/-- A thread moves outside the initialiser. -/
theorem inv_goto {v : Tid} {pc : Pc} (h : Inv s) (hfrom : ∀ data, s.pcs v ≠ .fill data) (hto : ∀ data, pc ≠ .fill data)
    (hmade : made pc = true → s.guard = .done)
    (hinside : ∀ buf n i acc, pc = .crc buf n i acc → i ≤ n.toNat ∧ acc = crcFold sCrctable buf i) : Inv (s.goto v pc) where
  untouched := h.untouched
  running w hw := by
    obtain ⟨data, hle, hpc, htable⟩ := h.running w hw
    refine ⟨data, hle, ?_, htable⟩
    rw [goto_ne]
    · exact hpc
    · intro heq
      subst heq
      exact hfrom data hpc
  done := h.done
  filling w data hw := by
    by_cases e : w = v
    · subst e
      rw [goto_same] at hw
      exact absurd hw (hto data)
    · rw [goto_ne e] at hw
      exact h.filling w data hw
  made w hw := by
    by_cases e : w = v
    · subst e
      rw [goto_same] at hw
      exact hmade hw
    · rw [goto_ne e] at hw
      exact h.made w hw
  inside w buf n i acc hw := by
    by_cases e : w = v
    · subst e
      rw [goto_same] at hw
      exact hinside buf n i acc hw
    · rw [goto_ne e] at hw
      exact h.inside w buf n i acc hw
  sums := h.sums

/-- Nobody but the thread in the initialiser is past the declaration. -/
def Alone (s : Process) (v : Tid) : Prop := ∀ w, w ≠ v → s.pcs w = .idle ∨ s.pcs w = .enter

theorem Inv.alone {v : Tid} (h : Inv s) (hnot : s.guard ≠ .done) (hv : ∀ w, w ≠ v → s.guard ≠ .running w) :
    Alone s v := by
  intro w hw
  cases hpc : s.pcs w with
  | idle => exact Or.inl rfl
  | enter => exact Or.inr rfl
  | fill data => exact absurd (h.filling w data hpc) (hv w hw)
  | ready => exact absurd (h.made w (by rw [hpc]; rfl)) hnot
  | crc buf n i acc => exact absurd (h.made w (by rw [hpc]; rfl)) hnot

/-- It enters the initialiser, makes a round in it, or leaves it. -/
theorem inv_alone {v : Tid} (h : Inv s) (halone : Alone s v) {pc : Pc} {guard : Guard} {table : List (BitVec 16)}
    (hgoes : (guard = .done ∧ pc = .ready ∧ table = sCrctable) ∨
      (guard = .running v ∧ ∃ data ≤ 256, pc = .fill data ∧ table = filledTo data)) :
    Inv ({ s with guard := guard, table := table }.goto v pc) where
  untouched hg := by
    rcases hgoes with ⟨rfl, -, -⟩ | ⟨rfl, -⟩ <;> cases hg
  running w hw := by
    rcases hgoes with ⟨rfl, -, -⟩ | ⟨rfl, data, hle, hpc, htable⟩
    · cases hw
    · cases hw
      exact ⟨data, hle, (goto_same _ v pc).trans hpc, htable⟩
  done hg := by
    rcases hgoes with ⟨-, -, htable⟩ | ⟨rfl, -⟩
    · exact htable
    · cases hg
  filling w data hw := by
    by_cases e : w = v
    · subst e
      rw [goto_same] at hw
      rcases hgoes with ⟨-, hpc, -⟩ | ⟨hg, -⟩
      · cases hpc.symm.trans hw
      · exact hg
    · rw [goto_ne e] at hw
      rcases halone w e with hpc | hpc <;> cases hpc.symm.trans hw
  made w hw := by
    by_cases e : w = v
    · subst e
      rw [goto_same] at hw
      rcases hgoes with ⟨hg, -, -⟩ | ⟨-, data, -, hpc, -⟩
      · exact hg
      · rw [hpc] at hw
        cases hw
    · rw [goto_ne e, show ({ s with guard := guard, table := table } : Process).pcs w = s.pcs w from rfl] at hw
      rcases halone w e with hpc | hpc <;> (rw [hpc] at hw; cases hw)
  inside w buf n i acc hw := by
    by_cases e : w = v
    · subst e
      rw [goto_same] at hw
      rcases hgoes with ⟨-, hpc, -⟩ | ⟨-, data, -, hpc, -⟩ <;> cases hpc.symm.trans hw
    · rw [goto_ne e] at hw
      exact h.inside w buf n i acc hw
  sums := h.sums

theorem inv_step {a : Act} (h : Inv s) (hs : s.step a = some t) : Inv t := by
  obtain ⟨v, hs⟩ := step_cases hs
  cases hs with
  | construct hpc =>
    refine inv_goto h ?_ nofun nofun nofun
    intro data hd
    rcases hpc with hpc | hpc <;> cases hpc.symm.trans hd
  | call buf n hpc =>
    have hdone : s.guard = .done := h.made v (by rw [hpc]; rfl)
    refine inv_goto h (fun data hd => ?_) nofun (fun _ => hdone) ?_
    · cases hpc.symm.trans hd
    · intro buf' n' i acc he
      cases he
      exact ⟨Nat.zero_le _, rfl⟩
  | first hpc hg =>
    refine inv_alone h (h.alone (by rw [hg]; exact nofun) fun w _ => by rw [hg]; exact nofun) ?_
    exact Or.inr ⟨rfl, 0, Nat.zero_le _, rfl, h.untouched hg⟩
  | later hpc hg =>
    exact inv_goto h (fun data hd => by cases hpc.symm.trans hd) nofun (fun _ => hg) nofun
  | fill data hpc hlt =>
    have hg : s.guard = .running v := h.filling v data hpc
    obtain ⟨data', -, hpc', htable⟩ := h.running v hg
    cases hpc.symm.trans hpc'
    refine inv_alone h (h.alone (by rw [hg]; exact nofun) fun w hw => ?_) ?_
    · rw [hg]
      intro he
      exact hw (Guard.running.inj he).symm
    · refine Or.inr ⟨hg, data + 1, hlt, rfl, ?_⟩
      rw [htable, filledTo_succ hlt]
  | filled data hpc hge =>
    have hg : s.guard = .running v := h.filling v data hpc
    obtain ⟨data', hle, hpc', htable⟩ := h.running v hg
    cases hpc.symm.trans hpc'
    refine inv_alone h (h.alone (by rw [hg]; exact nofun) fun w hw => ?_) ?_
    · rw [hg]
      intro he
      exact hw (Guard.running.inj he).symm
    · refine Or.inl ⟨rfl, rfl, ?_⟩
      rw [htable, Nat.le_antisymm hle hge, filledTo_all]
  | round buf n i acc hpc hlt =>
    have hdone : s.guard = .done := h.made v (by rw [hpc]; rfl)
    obtain ⟨hi, hacc⟩ := h.inside v buf n i acc hpc
    refine inv_goto h (fun data hd => by cases hpc.symm.trans hd) nofun (fun _ => hdone) ?_
    intro buf' n' i' acc' he
    cases he
    refine ⟨by omega, ?_⟩
    rw [h.done hdone, hacc, crcFold, crcFold, load_succ, List.foldl_append, Int.zero_add]
    rfl
  | sum buf n i acc hpc hge =>
    have hdone : s.guard = .done := h.made v (by rw [hpc]; rfl)
    obtain ⟨hi, hacc⟩ := h.inside v buf n i acc hpc
    have hall : i = n.toNat := by omega
    have hgoto : Inv (s.goto v .ready) :=
      inv_goto h (fun data hd => by cases hpc.symm.trans hd) nofun (fun _ => hdone) nofun
    refine { hgoto with sums := ?_ }
    intro r hr
    rcases List.mem_append.mp hr with hr | hr
    · exact h.sums r hr
    · cases List.mem_singleton.mp hr
      rw [hacc, hall]
      rfl

theorem inv_run (h : run step start as = some t) : Inv t := run_invariant (fun _ _ _ => inv_step) inv_start h

/-- Once it is filled the table stays, and so does the guard. -/
theorem done_step {a : Act} (h : Inv s) (hg : s.guard = .done) (hs : s.step a = some t) :
    t.guard = .done ∧ t.table = s.table := by
  obtain ⟨v, hs⟩ := step_cases hs
  cases hs with
  | first hpc hu => cases hg.symm.trans hu
  | fill data hpc hlt => cases hg.symm.trans (h.filling v data hpc)
  | filled data hpc hge => exact ⟨rfl, rfl⟩
  | construct hpc => exact ⟨hg, rfl⟩
  | call buf n hpc => exact ⟨hg, rfl⟩
  | later hpc hd => exact ⟨hg, rfl⟩
  | round buf n i acc hpc hlt => exact ⟨hg, rfl⟩
  | sum buf n i acc hpc hge => exact ⟨hg, rfl⟩

/-- However the threads of a process interleave, whichever of them builds the first client and
    whoever computes what in between: a thread that has a client finds the whole table, which
    stays as it is, and every `CRC` that has returned has returned the checksum of its bytes. -/
theorem sums_are_right (hrun : run step start as = some t) :
    (∀ v, made (t.pcs v) = true → t.table = sCrctable ∧
      ∀ bs u, run step t bs = some u → u.table = sCrctable) ∧
    ∀ r ∈ t.sums, r.value = crc sCrctable r.buf r.n := by
  have ht := inv_run hrun
  refine ⟨?_, ht.sums⟩
  intro v hv
  have hg := ht.made v hv
  refine ⟨ht.done hg, ?_⟩
  intro bs u hu
  have hlater : Inv u ∧ u.guard = .done := by
    refine run_invariant (I := fun s => Inv s ∧ s.guard = .done) ?_ ⟨ht, hg⟩ hu
    intro s a t h hs
    exact ⟨inv_step h.1 hs, (done_step h.1 h.2 hs).1⟩
  exact hlater.1.done hlater.2

/-- Two threads build a client at the same time; the first runs the initialiser while the
    second waits, then both compute. -/
def twoThreads : List Act :=
  [.construct 0, .construct 1, .go 0] ++ List.replicate 257 (.go 0) ++
    [.go 1, .call 1 (memOf [0x31]) 1, .call 0 (memOf []) 0, .go 1, .go 0, .go 1]

theorem sums_of_two_threads :
    ∃ t, run step start twoThreads = some t ∧
      (∀ v, made (t.pcs v) = true → t.table = sCrctable ∧
        ∀ bs u, run step t bs = some u → u.table = sCrctable) ∧
      ∀ r ∈ t.sums, r.value = crc sCrctable r.buf r.n := by
  have hrun : (run step start twoThreads).isSome := by decide +kernel
  obtain ⟨t, ht⟩ := Option.isSome_iff_exists.mp hrun
  exact ⟨t, ht, sums_are_right ht⟩

/-! ## The initialiser -/

/-- A step of the initialiser. -/
def fills (s : Process) : Act → Bool
  | .go v =>
    match s.pcs v with
    | .fill _ => true
    | _ => false
  | _ => false

/-- How many steps the initialiser has yet to make. -/
def fillRank (s : Process) : Nat :=
  match s.guard with
  | .untouched => 257
  | .running v =>
    match s.pcs v with
    | .fill data => 257 - data
    | _ => 0
  | .done => 0

theorem fillRank_running {v : Tid} {data : Nat} (hg : s.guard = .running v) (hpc : s.pcs v = .fill data) :
    s.fillRank = 257 - data := by
  simp [fillRank, hg, hpc]

/-- Another thread than the one in the initialiser moves. -/
theorem fillRank_goto {v : Tid} {pc : Pc} (h : Inv s) (hfrom : ∀ data, s.pcs v ≠ .fill data) :
    (s.goto v pc).fillRank = s.fillRank := by
  unfold fillRank
  cases hg : s.guard with
  | untouched => simp [goto, hg]
  | done => simp [goto, hg]
  | running w =>
    obtain ⟨data, -, hpc, -⟩ := h.running w hg
    have hne : w ≠ v := by
      intro heq
      subst heq
      exact hfrom data hpc
    rw [show (s.goto v pc).guard = .running w from hg]
    simp only [goto_ne hne]

theorem fills_lowers (s : Process) (a : Act) (t : Process) (h : Inv s) (hs : s.step a = some t) :
    Lowers fills Inv fillRank s a t := by
  have hnext := inv_step h hs
  obtain ⟨v, hs⟩ := step_cases hs
  cases hs with
  | construct hpc =>
    have hsame : (s.goto v .enter).fillRank = s.fillRank := by
      refine fillRank_goto h ?_
      intro data hd
      rcases hpc with hpc | hpc <;> cases hpc.symm.trans hd
    exact ⟨hnext, Nat.le_of_eq hsame, nofun⟩
  | call buf n hpc =>
    exact ⟨hnext, Nat.le_of_eq (fillRank_goto h fun data hd => by cases hpc.symm.trans hd), nofun⟩
  | later hpc hg =>
    refine ⟨hnext, Nat.le_of_eq (fillRank_goto h fun data hd => by cases hpc.symm.trans hd), ?_⟩
    simp [fills, hpc]
  | round buf n i acc hpc hlt =>
    refine ⟨hnext, Nat.le_of_eq (fillRank_goto h fun data hd => by cases hpc.symm.trans hd), ?_⟩
    simp [fills, hpc]
  | sum buf n i acc hpc hge =>
    have hsame : (s.goto v .ready).fillRank = s.fillRank := fillRank_goto h fun data hd => by cases hpc.symm.trans hd
    refine ⟨hnext, Nat.le_of_eq hsame, ?_⟩
    simp [fills, hpc]
  | first hpc hg =>
    refine ⟨hnext, ?_, ?_⟩
    · have hafter : fillRank ({ s with guard := .running v }.goto v (.fill 0)) = 257 - 0 :=
        fillRank_running rfl (goto_same _ v _)
      rw [hafter]
      simp [fillRank, hg]
    · simp [fills, hpc]
  | fill data hpc hlt =>
    have hg := h.filling v data hpc
    have hlow : fillRank ({ s with table := s.table.set data (entry data) }.goto v (.fill (data + 1))) < s.fillRank := by
      have hafter := fillRank_running (s := { s with table := s.table.set data (entry data) }.goto v (.fill (data + 1))) hg
        (goto_same _ v _)
      rw [fillRank_running hg hpc, hafter]
      omega
    exact ⟨hnext, Nat.le_of_lt hlow, fun _ => hlow⟩
  | filled data hpc hge =>
    have hg := h.filling v data hpc
    obtain ⟨data', hle, hpc', -⟩ := h.running v hg
    cases hpc.symm.trans hpc'
    have hlow : fillRank ({ s with guard := .done }.goto v .ready) < s.fillRank := by
      have hafter : fillRank ({ s with guard := .done }.goto v .ready) = 0 := rfl
      rw [hafter, fillRank_running hg hpc]
      omega
    exact ⟨hnext, Nat.le_of_lt hlow, fun _ => hlow⟩

/-- In every run the initialiser makes 257 steps at most, whichever thread runs it; and where
    a constructor has come to the declaration, it goes on, or the initialiser does. -/
theorem table_is_filled_once (hrun : run step start as = some t) :
    counted step fills start as ≤ 257 ∧
      ∀ v, t.pcs v = .enter → t.step (.go v) ≠ none ∨ ∃ w, t.fills (.go w) = true ∧ t.step (.go w) ≠ none := by
  have hcount := counted_add_rank_le fills_lowers inv_start hrun
  have hfirst : start.fillRank = 257 := rfl
  refine ⟨by omega, ?_⟩
  intro v hv
  cases hg : t.guard with
  | untouched => exact Or.inl (by simp [step, hv, hg])
  | done => exact Or.inl (by simp [step, hv, hg])
  | running w =>
    obtain ⟨data, -, hpc, -⟩ := (inv_run hrun).running w hg
    refine Or.inr ⟨w, by simp [fills, hpc], ?_⟩
    simp only [step, hpc]
    split <;> exact Option.some_ne_none _

theorem table_of_two_threads :
    ∃ t, run step start twoThreads = some t ∧ counted step fills start twoThreads ≤ 257 ∧
      ∀ v, t.pcs v = .enter → t.step (.go v) ≠ none ∨ ∃ w, t.fills (.go w) = true ∧ t.step (.go w) ≠ none := by
  have hrun : (run step start twoThreads).isSome := by decide +kernel
  obtain ⟨t, ht⟩ := Option.isSome_iff_exists.mp hrun
  exact ⟨t, ht, table_is_filled_once ht⟩

end Process

end ComClient.Crc.Once
