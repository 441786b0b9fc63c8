/-
  ComClient.Server.UdpStop — `UDPServer::stop` beside the receive thread
  (`src/include/udp_client.hpp`).

  The socket does not block, so the thread comes back to the flag after every `recvfrom`,
  with a datagram or without one, and a join waits for nobody else. Each step of the two
  is one action; `Server::stop` finds the flag clear and returns at once.

  - `udp_stop_ends`: once the flag is clear the two make four steps at most, whatever
    arrives, and where they can make no more `stop()` has returned; the thread handles one
    datagram more at most, and none after the return.
-/

import ComClient.Lts.Rank
import ComClient.Server.UdpFifos

namespace ComClient.Server.UDPServer

open ComClient.Lts

/-- Where a call of `stop()` stands. -/
inductive Stopper where
  | idle
  | check
  | clear
  | join
  | base
  | returned
  deriving DecidableEq, Repr

structure Stopping where
  server : UDPServer
  stop : Stopper
  /-- `m_receive_thread.joinable()` -/
  joinable : Bool

inductive StoppingAct where
  /-- The receive thread, or an installation of the callback. -/
  | server (a : UdpAct)
  | call
  | stop
  deriving DecidableEq, Repr

namespace Stopping

/-- A step of `stop()`. -/
def stopStep (s : Stopping) : Option Stopping :=
  match s.stop with
  | .check => some { s with stop := if s.server.running then .clear else .returned }
  | .clear => some { s with server := { s.server with running := false }, stop := .join }
  | .join =>
    if s.joinable then
      if s.server.receive = .done then some { s with stop := .base, joinable := false } else none
    else some { s with stop := .base }
  | .base => some { s with stop := .returned }
  | .idle => none
  | .returned => none

def step (s : Stopping) : StoppingAct → Option Stopping
  | .server .clear => none
  | .server a => (s.server.step a).map fun server => { s with server := server }
  | .call => if s.stop = .idle then some { s with stop := .check } else none
  | .stop => s.stopStep

/-- `start()` has returned normally. -/
structure Started (s : Stopping) : Prop where
  server : UDPServer.Started s.server
  stop : s.stop = .idle
  joinable : s.joinable = true

def started : Stopping := ⟨UDPServer.started, .idle, true⟩

/-- A step of the receive thread or of `stop()`. -/
def moves (_ : Stopping) : StoppingAct → Bool
  | .server .go => true
  | .server (.recvfrom _) => true
  | .stop => true
  | _ => false

/-! ## What is left to do -/

/-- For the thread that finds the flag clear. -/
def receiveRank : ReceivePc → Nat
  | .recvfrom => 2
  | .check => 1
  | .done => 0

def stopRank : Stopper → Nat
  | .join => 2
  | .base => 1
  | _ => 0

def rank (s : Stopping) : Nat := receiveRank s.server.receive + stopRank s.stop

/-- The datagrams that the thread may still handle. -/
def toHandle : ReceivePc → Nat
  | .recvfrom => 1
  | _ => 0

variable {s t u v : Stopping} {as bs cs : List StoppingAct}

/-- The flag is clear. -/
structure Closing (s : Stopping) : Prop where
  cleared : s.server.running = false
  past : s.stop = .join ∨ s.stop = .base ∨ s.stop = .returned
  joinable : s.stop = .join → s.joinable = true
  done : s.stop = .base ∨ s.stop = .returned → s.server.receive = .done

/-! ## Steps -/

theorem recvfrom_receive (s : UDPServer) (r : RecvFrom) : (s.recvfrom r).receive = s.receive := by
  cases r with
  | error e => rfl
  | datagram src payload =>
    unfold recvfrom
    dsimp only
    split <;> rfl

/-- A call of `recvfrom` is answered at most once. -/
theorem recvfrom_outputs (s : UDPServer) (r : RecvFrom) : (s.recvfrom r).outputs.length ≤ s.outputs.length + 1 := by
  cases r with
  | error e => exact Nat.le_succ _
  | datagram src payload =>
    rw [recvfrom_datagram]
    split
    · exact Nat.le_succ _
    · rename_i hne
      simp only [answers, hne, if_false, List.length_append]
      split <;> exact Nat.le_refl _

/-- What a step does once the flag is clear. -/
inductive ClosingStep (s : Stopping) : StoppingAct → Stopping → Prop
  | check : s.server.receive = .check →
      ClosingStep s (.server .go) { s with server := { s.server with receive := .done } }
  | recvfrom (r : RecvFrom) : s.server.receive = .recvfrom →
      ClosingStep s (.server (.recvfrom r)) { s with server := { s.server.recvfrom r with receive := .check } }
  | setCallback (installed : Bool) :
      ClosingStep s (.server (.setCallback installed)) { s with server := { s.server with hasCallback := installed } }
  | join : s.stop = .join → s.server.receive = .done → ClosingStep s .stop { s with stop := .base, joinable := false }
  | base : s.stop = .base → ClosingStep s .stop { s with stop := .returned }

theorem closing_cases {a : StoppingAct} (h : Closing s) (hs : s.step a = some t) : ClosingStep s a t := by
  cases a with
  | server a =>
    cases a with
    | go =>
      obtain ⟨server, hserver, rfl⟩ := Option.map_eq_some_iff.mp hs
      simp only [UDPServer.step] at hserver
      split at hserver
      · rename_i hpc
        cases hserver
        have hdone : (if s.server.running then ReceivePc.recvfrom else .done) = .done := by rw [h.cleared]; rfl
        rw [hdone]
        exact .check hpc
      · cases hserver
    | recvfrom r =>
      obtain ⟨server, hserver, rfl⟩ := Option.map_eq_some_iff.mp hs
      obtain ⟨hpc, hserver⟩ := Option.ite_none_right_eq_some.mp hserver
      cases hserver
      exact .recvfrom r hpc
    | setCallback installed =>
      cases Option.some.inj hs
      exact .setCallback installed
    | clear => cases hs
  | call =>
    obtain ⟨hidle, -⟩ := Option.ite_none_right_eq_some.mp hs
    rcases h.past with hp | hp | hp <;> cases hidle.symm.trans hp
  | stop =>
    change s.stopStep = some t at hs
    rcases h.past with hp | hp | hp
    · rw [stopStep, hp] at hs
      simp only [h.joinable hp, if_true] at hs
      obtain ⟨hdone, hs⟩ := Option.ite_none_right_eq_some.mp hs
      cases hs
      exact .join hp hdone
    · rw [stopStep, hp] at hs
      cases hs
      exact .base hp
    · rw [stopStep, hp] at hs
      cases hs

theorem closing_step {a : StoppingAct} (h : Closing s) (hs : ClosingStep s a t) : Closing t := by
  cases hs with
  | check hpc => exact ⟨h.cleared, h.past, h.joinable, fun _ => rfl⟩
  | recvfrom r hpc =>
    refine ⟨(recvfrom_running _ _).trans h.cleared, h.past, h.joinable, ?_⟩
    intro hp
    cases hpc.symm.trans (h.done hp)
  | setCallback installed => exact ⟨h.cleared, h.past, h.joinable, h.done⟩
  | join hp hdone => exact ⟨h.cleared, Or.inr (Or.inl rfl), nofun, fun _ => hdone⟩
  | base hp => exact ⟨h.cleared, Or.inr (Or.inr rfl), nofun, fun _ => h.done (Or.inl hp)⟩

theorem closing_lowers (s : Stopping) (a : StoppingAct) (t : Stopping) (h : Closing s) (hs : s.step a = some t) :
    Lowers moves Closing rank s a t := by
  have hcases := closing_cases h hs
  have hlt : moves s a = true → rank t < rank s := by
    intro hmove
    cases hcases with
    | check hpc => simp [rank, receiveRank, hpc]
    | recvfrom r hpc => simp [rank, receiveRank, hpc]
    | setCallback installed => cases hmove
    | join hp hdone => simp [rank, stopRank, hp]
    | base hp => simp [rank, stopRank, hp]
  refine ⟨closing_step h hcases, ?_, hlt⟩
  cases hmove : moves s a with
  | true => exact Nat.le_of_lt (hlt hmove)
  | false =>
    cases hcases with
    | setCallback installed => exact Nat.le_refl _
    | _ => cases hmove

/-- What has been answered and what may still be. -/
theorem outputs_step {a : StoppingAct} (hs : ClosingStep s a t) :
    t.server.outputs.length + toHandle t.server.receive ≤ s.server.outputs.length + toHandle s.server.receive := by
  cases hs with
  | check hpc => exact Nat.add_le_add_left (Nat.zero_le _) _
  | recvfrom r hpc =>
    have hle := recvfrom_outputs s.server r
    show (s.server.recvfrom r).outputs.length + 0 ≤ s.server.outputs.length + toHandle s.server.receive
    rw [hpc]
    exact hle
  | setCallback installed => exact Nat.le_refl _
  | join hp hdone => exact Nat.le_refl _
  | base hp => exact Nat.le_refl _

/-! ## Runs -/

/-- Where `stop()` stands with the flag and the thread. -/
structure Inside (s : Stopping) : Prop where
  closing : s.stop = .join ∨ s.stop = .base → Closing s
  joinable : s.stop = .idle ∨ s.stop = .check ∨ s.stop = .clear → s.joinable = true

theorem inside_step (s : Stopping) (a : StoppingAct) (t : Stopping) (h : Inside s) (hs : s.step a = some t) : Inside t := by
  by_cases hc : s.stop = .join ∨ s.stop = .base
  · have hclosing := h.closing hc
    have hnext := closing_step hclosing (closing_cases hclosing hs)
    refine ⟨fun _ => hnext, ?_⟩
    intro hp
    rcases hnext.past with h | h | h <;> (rw [h] at hp; simp at hp)
  · have hkeeps : t.stop = s.stop → t.joinable = s.joinable → Inside t := by
      intro hstop hjoin
      refine ⟨fun hp => absurd (hstop ▸ hp) hc, ?_⟩
      intro hp
      rw [hstop] at hp
      exact hjoin.trans (h.joinable hp)
    cases a with
    | server a =>
      have hmap : ∃ server, t = { s with server := server } := by
        cases a with
        | clear => cases hs
        | go =>
          obtain ⟨server, -, rfl⟩ := Option.map_eq_some_iff.mp hs
          exact ⟨server, rfl⟩
        | recvfrom r =>
          obtain ⟨server, -, rfl⟩ := Option.map_eq_some_iff.mp hs
          exact ⟨server, rfl⟩
        | setCallback installed =>
          obtain rfl := Option.some.inj hs
          exact ⟨_, rfl⟩
      obtain ⟨server, rfl⟩ := hmap
      exact hkeeps rfl rfl
    | call =>
      obtain ⟨hidle, hs⟩ := Option.ite_none_right_eq_some.mp hs
      cases hs
      refine ⟨fun hp => ?_, fun _ => h.joinable (Or.inl hidle)⟩
      simp at hp
    | stop =>
      change s.stopStep = some t at hs
      cases hp : s.stop with
      | idle => rw [stopStep, hp] at hs; cases hs
      | join => exact absurd (Or.inl hp) hc
      | base => exact absurd (Or.inr hp) hc
      | returned => rw [stopStep, hp] at hs; cases hs
      | check =>
        rw [stopStep, hp] at hs
        cases hs
        refine ⟨fun hq => ?_, fun _ => h.joinable (Or.inr (Or.inl hp))⟩
        dsimp only at hq
        split at hq <;> simp at hq
      | clear =>
        rw [stopStep, hp] at hs
        cases hs
        have hjoin := h.joinable (Or.inr (Or.inr hp))
        refine ⟨fun _ => ⟨rfl, Or.inl rfl, fun _ => hjoin, ?_⟩, fun hq => ?_⟩
        · intro hq
          simp at hq
        · simp at hq

/-- Once `stop()` has cleared the flag: the receive thread and `stop()` make four moves at most,
    whatever arrives; where they can make no more, `stop()` has returned; the thread answers
    one datagram more at most, and when `stop()` has returned nothing changes any more. -/
theorem udp_stop_ends (h0 : Started s) (hrun : run step s as = some t) (hjoin : t.stop = .join)
    (hrun' : run step t bs = some u) :
    counted step moves t bs ≤ 4 ∧
      ((∀ a, u.moves a = true → u.step a = none) → u.stop = .returned) ∧
      u.server.outputs.length ≤ t.server.outputs.length + 1 ∧
      (u.stop = .returned → ∀ cs v, run step u cs = some v →
        v.server.outputs = u.server.outputs ∧ v.server.fifos = u.server.fifos ∧ v.server.buffer = u.server.buffer) := by
  have hinside : Inside t := by
    refine run_invariant inside_step ⟨fun hp => ?_, fun _ => h0.joinable⟩ hrun
    rw [h0.stop] at hp
    simp at hp
  have hclosing : Closing t := hinside.closing (Or.inl hjoin)
  have hu : Closing u :=
    run_invariant (fun s a t h hs => closing_step h (closing_cases h hs)) hclosing hrun'
  have hcount := counted_add_rank_le closing_lowers hclosing hrun'
  have hrank : rank t ≤ 4 := by
    rw [rank, hjoin]
    cases t.server.receive <;> simp [receiveRank, stopRank]
  have houtputs : Closing u ∧ u.server.outputs.length + toHandle u.server.receive ≤
      t.server.outputs.length + toHandle t.server.receive := by
    refine run_invariant (I := fun m => Closing m ∧ m.server.outputs.length + toHandle m.server.receive ≤
      t.server.outputs.length + toHandle t.server.receive) ?_ ⟨hclosing, Nat.le_refl _⟩ hrun'
    intro m a n hm hs
    have hcases := closing_cases hm.1 hs
    exact ⟨closing_step hm.1 hcases, (outputs_step hcases).trans hm.2⟩
  refine ⟨by omega, ?_, ?_, ?_⟩
  · intro hblocked
    have hdone : u.server.receive = .done := by
      cases hpc : u.server.receive with
      | done => rfl
      | check =>
        have hno := hblocked (.server .go) rfl
        simp [step, UDPServer.step, hpc] at hno
      | recvfrom =>
        have hno := hblocked (.server (.recvfrom (.error 0))) rfl
        simp [step, UDPServer.step, hpc] at hno
    have hno : u.stopStep = none := hblocked .stop rfl
    rcases hu.past with hp | hp | hp
    · simp [stopStep, hp, hu.joinable hp, hdone] at hno
    · simp [stopStep, hp] at hno
    · exact hp
  · have hle := houtputs.2
    have hone : toHandle t.server.receive ≤ 1 := by cases t.server.receive <;> simp [toHandle]
    omega
  · intro hreturned cs v hrun''
    have hall : Closing v ∧ v.server.receive = .done ∧ v.server.outputs = u.server.outputs ∧
        v.server.fifos = u.server.fifos ∧ v.server.buffer = u.server.buffer := by
      refine run_invariant (I := fun m => Closing m ∧ m.server.receive = .done ∧ m.server.outputs = u.server.outputs ∧
        m.server.fifos = u.server.fifos ∧ m.server.buffer = u.server.buffer) ?_
        ⟨hu, hu.done (Or.inr hreturned), rfl, rfl, rfl⟩ hrun''
      intro m a n hm hs
      have hcases := closing_cases hm.1 hs
      refine ⟨closing_step hm.1 hcases, ?_⟩
      cases hcases with
      | check hpc => cases hpc.symm.trans hm.2.1
      | recvfrom r hpc => cases hpc.symm.trans hm.2.1
      | setCallback installed => exact hm.2
      | join hp hdone => exact hm.2
      | base hp => exact hm.2
    exact hall.2.2

/-- The thread is in its loop when `stop()` clears the flag. -/
def cleared : List StoppingAct := [.server .go, .call, .stop, .stop]

/-- One datagram comes before the thread looks at the flag. -/
def lastDatagram : List StoppingAct :=
  [.server (.recvfrom (.datagram ⟨0x7f000001, 5000⟩ [7])), .server .go, .stop, .stop]

theorem udp_stop_ends_after_a_datagram :
    ∃ t u, run step started cleared = some t ∧ run step t lastDatagram = some u ∧ u.stop = .returned ∧
      counted step moves t lastDatagram ≤ 4 ∧
      ((∀ a, u.moves a = true → u.step a = none) → u.stop = .returned) ∧
      u.server.outputs.length ≤ t.server.outputs.length + 1 ∧
      (u.stop = .returned → ∀ cs v, run step u cs = some v →
        v.server.outputs = u.server.outputs ∧ v.server.fifos = u.server.fifos ∧
          v.server.buffer = u.server.buffer) := by
  have hrun : (run step started cleared).map (·.stop) = some .join := by decide +kernel
  obtain ⟨t, ht, hjoin⟩ := Option.map_eq_some_iff.mp hrun
  have hmore : ((run step started cleared).bind fun t => run step t lastDatagram).map (·.stop) = some .returned := by
    decide +kernel
  rw [ht, Option.bind_some] at hmore
  obtain ⟨u, hu, hreturned⟩ := Option.map_eq_some_iff.mp hmore
  exact ⟨t, u, ht, hu, hreturned, udp_stop_ends ⟨started_started, rfl, rfl⟩ ht hjoin hu⟩

end Stopping

end ComClient.Server.UDPServer
