/-
  ComClient.Server.Reuse — when the accept thread kills the process.

  A handler that has ended leaves its entry of `m_threads` behind, joinable until
  `stop()` joins it, while the kernel gives its descriptor to the next connection. The
  accept thread then assigns a new thread over a joinable one: `std::terminate`.

  - `terminate_iff_reuse`: before `stop()`, the entries that hold a joinable thread are
    those of the descriptors `accept` has returned so far, so the server survives as
    long as `accept` returns none of them again.
  - `a_second_client_kills_the_server`: connect, disconnect, connect.
-/

import ComClient.Server.Steps

namespace ComClient.Server.TCPServer

open ComClient.Lts

variable {s t : TCPServer} {as : List Act}

/-- What `accept` returned in the run. -/
def accepted (as : List Act) : List Socket :=
  as.filterMap fun
    | .accept (.connection fd) => some fd
    | _ => none

/-- The connection that is not in `m_threads` yet. -/
def registering : AcceptPc → Option Socket
  | .insertClient fd => some fd
  | .setFifo fd => some fd
  | .makeMutex fd => some fd
  | .startThread fd => some fd
  | .assign fd _ => some fd
  | _ => none

/-- `l`: the descriptors whose entry holds a joinable thread. -/
structure Entries (as : List Act) (s : TCPServer) (l : List Socket) : Prop where
  nodup : l.Nodup
  joinable : ∀ fd, fd ∈ l ↔ ∃ tid, s.Joinable fd tid
  accepted : accepted as = l ++ (registering s.accept).toList
  terminated : s.fault = some .terminate → ∃ fd ∈ l, registering s.accept = some fd

theorem accepted_snoc (as : List Act) (a : Act) : accepted (as ++ [a]) = accepted as ++ accepted [a] :=
  List.filterMap_append

theorem nodup_snoc {l : List Socket} {fd : Socket} : (l ++ [fd]).Nodup ↔ l.Nodup ∧ fd ∉ l := by
  rw [List.nodup_append_comm, List.singleton_append, List.nodup_cons, and_comm]

theorem entries_insert {fd g : Socket} {tid : Tid} (ht : t.threads = s.threads.insert fd (some tid)) :
    (∃ tid, t.Joinable g tid) ↔ (∃ tid, s.Joinable g tid) ∨ g = fd := by
  simp only [joinable_insert ht]
  by_cases hg : g = fd
  · simp [hg]
  · simp [hg]

/-- A step that neither accepts nor assigns. -/
theorem entries_frame {a : Act} {l : List Socket} (h : Entries as s l) (ha : accepted [a] = [])
    (hthreads : t.threads = s.threads) (hreg : registering t.accept = registering s.accept)
    (hfault : t.fault ≠ some .terminate) : Entries (as ++ [a]) t l where
  nodup := h.nodup
  joinable fd := by
    rw [h.joinable fd]
    simp only [Joinable, hthreads]
  accepted := by rw [accepted_snoc, ha, List.append_nil, h.accepted, hreg]
  terminated hf := absurd hf hfault

theorem entries_acceptStep {a : AcceptAct} {l : List Socket} (h : Entries as s l) (hf : s.fault = none)
    (hs : AcceptStep s a t) : ∃ l, Entries (as ++ [.accept a]) t l := by
  have hnot : s.fault ≠ some .terminate := by rw [hf]; exact nofun
  cases hs with
  | check hpc =>
    refine ⟨l, entries_frame h rfl rfl ?_ hnot⟩
    rw [hpc]
    dsimp only
    split <;> rfl
  | insertClient fd hpc => exact ⟨l, entries_frame h rfl rfl (by rw [hpc]; rfl) hnot⟩
  | setFifo fd hpc => exact ⟨l, entries_frame h rfl rfl (by rw [hpc]; rfl) hnot⟩
  | makeMutex fd hpc => exact ⟨l, entries_frame h rfl rfl (by rw [hpc]; rfl) hnot⟩
  | startThread fd hpc => exact ⟨l, entries_frame h rfl rfl (by rw [hpc]; rfl) hnot⟩
  | notify fd hpc => exact ⟨l, entries_frame h rfl rfl (by rw [hpc]; rfl) hnot⟩
  | error e hpc =>
    refine ⟨l, entries_frame h rfl rfl ?_ hnot⟩
    rw [hpc]
    dsimp only
    split <;> rfl
  | connection fd hpc hfree =>
    refine ⟨l, h.nodup, h.joinable, ?_, fun hf => absurd hf hnot⟩
    rw [accepted_snoc, h.accepted, hpc]
    exact congrArg (· ++ [(fd : Socket)]) (List.append_nil l)
  | assign fd tid hpc hnone =>
    have hfd : fd ∉ l := by
      intro hl
      obtain ⟨old, hold⟩ := (h.joinable fd).mp hl
      exact hnone old hold
    refine ⟨l ++ [fd], nodup_snoc.mpr ⟨h.nodup, hfd⟩, ?_, ?_, fun hf => absurd hf hnot⟩
    · intro g
      rw [List.mem_append, List.mem_singleton, h.joinable g]
      exact (entries_insert rfl).symm
    · rw [accepted_snoc, h.accepted, hpc]
      simp [accepted, registering]
  | terminate fd tid old hpc hold =>
    refine ⟨l, h.nodup, h.joinable, ?_, fun _ => ⟨fd, (h.joinable fd).mpr ⟨old, hold⟩, by rw [hpc]; rfl⟩⟩
    rw [accepted_snoc, h.accepted]
    exact List.append_nil _

theorem entries_step {a : Act} {l : List Socket} (h : Entries as s l) (hstop : isStop a = false)
    (hs : s.step a = some t) : ∃ l, Entries (as ++ [a]) t l := by
  obtain ⟨hf, hs⟩ := step_cases hs
  cases a with
  | accept a => exact entries_acceptStep h hf hs
  | handler tid a =>
    have hsame := HandlerStep.same hs
    refine ⟨l, entries_frame h rfl hsame.threads (by rw [hsame.accept]) ?_⟩
    rw [HandlerStep.fault hs, hf]
    exact nofun
  | stop a => cases hstop
  | user u a =>
    have hsame := UserStep.same hs
    exact ⟨l, entries_frame h rfl hsame.threads (by rw [hsame.accept]) (UserStep.no_terminate hs hf)⟩
  | world a =>
    have hsame := WorldStep.same hs
    refine ⟨l, entries_frame h rfl hsame.threads (by rw [hsame.accept]) ?_⟩
    rw [WorldStep.fault hs, hf]
    exact nofun

theorem entries_run (h0 : Started s) (hstop : NoStop as) (hrun : run step s as = some t) : ∃ l, Entries as t l := by
  refine run_trace_of_forall (I := fun as t => ∃ l, Entries as t l) ?_ ?_ hstop hrun
  · intro as s a t ih ha hs
    obtain ⟨l, h⟩ := ih
    exact entries_step h ha hs
  · refine ⟨[], List.nodup_nil, ?_, ?_, ?_⟩
    · intro fd
      simp [h0.threads fd]
    · rw [h0.accept]; rfl
    · intro hf
      rw [h0.fault] at hf; cases hf

/-- Before `stop()`, as long as `accept` returns no descriptor a second time, no thread is
    assigned over a joinable one. -/
theorem survives_of_nodup (h0 : Started s) (hstop : NoStop as) (hrun : run step s as = some t)
    (hnodup : (accepted as).Nodup) : t.fault ≠ some .terminate := by
  obtain ⟨l, h⟩ := entries_run h0 hstop hrun
  intro hf
  obtain ⟨fd, hfd, hreg⟩ := h.terminated hf
  rw [h.accepted, hreg] at hnodup
  exact (nodup_snoc.mp hnodup).2 hfd

/-- Before `stop()` the server survives as long as `accept` returns each descriptor once,
    and no longer: the entry about to be assigned is joinable if and only if `accept`
    returned its descriptor before. -/
theorem terminate_iff_reuse (h0 : Started s) (hstop : NoStop as) (hrun : run step s as = some t) :
    ((accepted as).Nodup → t.fault ≠ some .terminate) ∧
      ∀ fd tid, t.accept = .assign fd tid → ((∃ old, t.Joinable fd old) ↔ ¬ (accepted as).Nodup) := by
  refine ⟨survives_of_nodup h0 hstop hrun, ?_⟩
  intro fd tid hpc
  obtain ⟨l, h⟩ := entries_run h0 hstop hrun
  have hacc : accepted as = l ++ [fd] := by rw [h.accepted, hpc]; rfl
  rw [← h.joinable fd, hacc, nodup_snoc]
  constructor
  · intro hfd hnodup
    exact hnodup.2 hfd
  · intro hdup
    by_contra hfd
    exact hdup ⟨h.nodup, hfd⟩

/-! ## Connect, disconnect, connect -/

def twoAtOnce : List Act := connect 4 ++ [.accept .go] ++ connect 5 ++ [.accept .go] ++ disconnect 4 0

theorem two_clients_at_once_survive :
    ∃ t, run step started twoAtOnce = some t ∧ ((accepted twoAtOnce).Nodup → t.fault ≠ some .terminate) ∧
      ∀ fd tid, t.accept = .assign fd tid → ((∃ old, t.Joinable fd old) ↔ ¬ (accepted twoAtOnce).Nodup) := by
  have hsome : (run step started twoAtOnce).isSome = true := by decide +kernel
  obtain ⟨t, ht⟩ := Option.isSome_iff_exists.mp hsome
  exact ⟨t, ht, terminate_iff_reuse started_started (by decide) ht⟩

def oneAfterTheOther : List Act := connect 4 ++ [.accept .go] ++ disconnect 4 0 ++ connect 4

/-- The first client has gone and its descriptor is free again; accepting the second
    client calls `std::terminate`. -/
theorem a_second_client_kills_the_server :
    NoStop oneAfterTheOther ∧ (run step started oneAfterTheOther).map (·.fault) = some (some .terminate) := by
  refine ⟨by decide, by decide +kernel⟩

end ComClient.Server.TCPServer
