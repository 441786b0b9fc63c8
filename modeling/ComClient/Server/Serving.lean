/-
  ComClient.Server.Serving — whether a server that says it is running still serves.

  The receive thread of a `UDPServer` goes on after any error; the accept thread of a
  `TCPServer` leaves its loop at the first one that is not would-block, and nothing clears
  the flag that `is_running()` returns.

  - `serves_iff_accept_only_blocks`: before `stop()` the flag is set, the receive thread
    is in its loop, and the accept thread is in its loop as long as `accept` fails with
    would-block only.
  - `a_transient_error_ends_the_accept_thread`: one `ECONNABORTED`.
-/

import ComClient.Server.Reuse
import ComClient.Server.Udp

namespace ComClient.Server.TCPServer

open ComClient.Lts

variable {s t : TCPServer} {as : List Act}

def ECONNABORTED : Errno := 103

/-- Each failure of `accept` in the run was a would-block. -/
def OnlyBlocks (as : List Act) : Prop := ∀ e, Act.accept (.error e) ∈ as → wouldBlock e = true

/-- The accept thread is inside its loop, and the process is there. -/
structure Serving (s : TCPServer) : Prop where
  inLoop : s.accept ≠ .done
  alive : s.fault ≠ some .terminate

structure Accepting (as : List Act) (s : TCPServer) : Prop where
  running : s.running = true
  stop : s.stop = .idle
  inLoop : s.accept ≠ .done ↔ OnlyBlocks as

theorem onlyBlocks_snoc {a : Act} :
    OnlyBlocks (as ++ [a]) ↔ OnlyBlocks as ∧ ∀ e, a = .accept (.error e) → wouldBlock e = true := by
  constructor
  · intro h
    refine ⟨fun e he => h e (List.mem_append_left _ he), ?_⟩
    intro e he
    exact h e (List.mem_append_right _ (List.mem_singleton.mpr he.symm))
  · intro h e he
    rcases List.mem_append.mp he with he | he
    · exact h.1 e he
    · exact h.2 e (List.mem_singleton.mp he).symm

theorem accepting_acceptStep {a : AcceptAct} (h : Accepting as s) (hs : AcceptStep s a t) :
    Accepting (as ++ [.accept a]) t := by
  obtain ⟨hr, hstop, -, hnot⟩ := AcceptStep.stop hs
  refine ⟨hr.trans h.running, hstop.trans h.stop, ?_⟩
  rw [onlyBlocks_snoc, and_iff_right (h.inLoop.mp hnot)]
  cases hs with
  | error e hpc =>
    dsimp only
    cases hb : wouldBlock e with
    | true => exact ⟨fun _ e' he => by cases he; exact hb, fun _ => nofun⟩
    | false =>
      refine ⟨fun hne => absurd rfl hne, ?_⟩
      intro hall
      rw [hall e rfl] at hb
      cases hb
  | check hpc =>
    dsimp only
    rw [if_pos h.running]
    exact ⟨fun _ => nofun, fun _ => nofun⟩
  | terminate fd tid old hpc hold => exact ⟨fun _ => nofun, fun _ => hnot⟩
  | connection fd hpc hfree => exact ⟨fun _ => nofun, fun _ => nofun⟩
  | insertClient fd hpc => exact ⟨fun _ => nofun, fun _ => nofun⟩
  | setFifo fd hpc => exact ⟨fun _ => nofun, fun _ => nofun⟩
  | makeMutex fd hpc => exact ⟨fun _ => nofun, fun _ => nofun⟩
  | startThread fd hpc => exact ⟨fun _ => nofun, fun _ => nofun⟩
  | assign fd tid hpc hnone => exact ⟨fun _ => nofun, fun _ => nofun⟩
  | notify fd hpc => exact ⟨fun _ => nofun, fun _ => nofun⟩

theorem accepting_same {a : Act} (h : Accepting as s) (ha : ∀ e, a ≠ .accept (.error e)) (hs : Same s t) :
    Accepting (as ++ [a]) t := by
  refine ⟨hs.running.trans h.running, hs.stop.trans h.stop, ?_⟩
  rw [onlyBlocks_snoc, hs.accept, h.inLoop]
  exact (and_iff_left fun e he => absurd he (ha e)).symm

theorem accepting_run (h0 : Started s) (hstop : NoStop as) (hrun : run step s as = some t) : Accepting as t := by
  refine run_trace_of_forall (I := Accepting) ?_ ?_ hstop hrun
  · intro as s a t h ha hs
    obtain ⟨-, hs⟩ := step_cases hs
    cases a with
    | accept a => exact accepting_acceptStep h hs
    | handler tid a => exact accepting_same h nofun (HandlerStep.same hs)
    | stop a => cases ha
    | user u a => exact accepting_same h nofun (UserStep.same hs)
    | world a => exact accepting_same h nofun (WorldStep.same hs)
  · refine ⟨h0.running, h0.stop, fun _ => nofun, ?_⟩
    intro _
    rw [h0.accept]
    exact nofun

/-- Before `stop()` both servers say that they are running. The receive thread of a
    `UDPServer` is in its loop; the accept thread of a `TCPServer` to which `accept` returned
    no descriptor twice is in its loop if and only if `accept` has failed with would-block
    only. -/
theorem serves_iff_accept_only_blocks (h0 : Started s) (hstop : NoStop as) (hrun : run step s as = some t)
    (hnodup : (accepted as).Nodup) {u v : UDPServer} {bs : List UdpAct} (u0 : UDPServer.Started u)
    (ustop : UDPServer.NoStop bs) (urun : run UDPServer.step u bs = some v) :
    (t.running = true ∧ (t.Serving ↔ OnlyBlocks as)) ∧ v.running = true ∧ v.receive ≠ .done := by
  have h := accepting_run h0 hstop hrun
  have hu := UDPServer.receiving_run u0 ustop urun
  refine ⟨⟨h.running, fun hs => h.inLoop.mp hs.inLoop, fun hok => ⟨h.inLoop.mpr hok, ?_⟩⟩, hu.running, hu.inLoop⟩
  exact survives_of_nodup h0 hstop hrun hnodup

def idleRun : List Act := [.accept .go, .accept (.error EAGAIN)] ++ connect 4

def noisyRun : List UdpAct := [.go, .recvfrom (.error ECONNABORTED), .go, .recvfrom (.datagram ⟨0x7f000001, 5000⟩ [1, 2])]

theorem serves_through_would_block :
    ∃ t v, run step started idleRun = some t ∧ run UDPServer.step UDPServer.started noisyRun = some v ∧
      (t.running = true ∧ (t.Serving ↔ OnlyBlocks idleRun)) ∧ v.running = true ∧ v.receive ≠ .done := by
  have hsome : (run step started idleRun).isSome = true := by decide +kernel
  have usome : (run UDPServer.step UDPServer.started noisyRun).isSome = true := by decide +kernel
  obtain ⟨t, ht⟩ := Option.isSome_iff_exists.mp hsome
  obtain ⟨v, hv⟩ := Option.isSome_iff_exists.mp usome
  refine ⟨t, v, ht, hv, serves_iff_accept_only_blocks started_started (by decide) ht (by decide)
    UDPServer.started_started ?_ hv⟩
  simp [UDPServer.NoStop, noisyRun]

/-- The client of a pending connection resets it: the accept thread is gone, the server says
    that it is running. -/
theorem a_transient_error_ends_the_accept_thread :
    (run step started [.accept .go, .accept (.error ECONNABORTED)]).map (fun t => (t.running, t.accept)) =
      some (true, .done) := by
  decide +kernel

end ComClient.Server.TCPServer
