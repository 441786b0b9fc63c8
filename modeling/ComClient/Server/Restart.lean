/-
  ComClient.Server.Restart — any number of server objects in one process, started and
  stopped in any order, and the ports that they ask for.

  The kernel does not bind a socket to a port that an open socket of the same kind is bound
  to; `SO_REUSEADDR` does not change that while the other one listens. `listening` has the
  starts that have returned, `sockets` of a server what it holds (`ComClient.Lifecycle`). A
  port is in use while the socket of such a start is among those held: what keeps it in use
  for good is that no `stop()` gives a socket up (`held_step`).

  - `one_start_for_a_port`: since a `stop()` keeps the socket, one start at most returns for
    a port in the life of the process; after that no server of the port starts again, the
    stopped one included.
-/

import ComClient.Server.Lifecycle

namespace ComClient.Lifecycle

open ComClient.Lts
open ComClient.Server (Socket Errno)

/-- A start that returned: of which server, and what its socket is bound to. -/
structure Listening where
  server : Nat
  fd : Socket
  kind : Kind
  port : BitVec 16
  deriving DecidableEq, Repr

structure Process where
  servers : Nat → Server
  listening : List Listening

inductive Use where
  | start (i : Nat) (k : Kernel)
  | stop (i : Nat)

/-- What `htons(m_port)` is made of. -/
def Server.boundPort (s : Server) : BitVec 16 := .ofInt 16 s.port

namespace Process

/-- The socket of the start is open and bound to the port of the server. Port 0 stands for any
    that is free. -/
def Holds (p : Process) (l : Listening) (s : Server) : Prop :=
  l.fd ∈ (p.servers l.server).sockets ∧ l.kind = s.kind ∧ l.port = s.boundPort ∧ l.port ≠ 0

instance (p : Process) (l : Listening) (s : Server) : Decidable (p.Holds l s) :=
  inferInstanceAs (Decidable
    (l.fd ∈ (p.servers l.server).sockets ∧ l.kind = s.kind ∧ l.port = s.boundPort ∧ l.port ≠ 0))

/-- `bind` finds the port of the server in use. -/
def Taken (p : Process) (s : Server) : Prop := ∃ l ∈ p.listening, p.Holds l s

instance (p : Process) (s : Server) : Decidable (p.Taken s) :=
  inferInstanceAs (Decidable (∃ l ∈ p.listening, p.Holds l s))

/-- The answers of a kernel that knows what is bound. -/
def Honest (p : Process) (s : Server) (k : Kernel) : Prop :=
  ∀ fd ∈ k.socket, p.Taken s → k.call (.bind fd s.boundPort) ≠ none

instance (p : Process) (s : Server) (k : Kernel) : Decidable (p.Honest s k) :=
  inferInstanceAs (Decidable (∀ fd ∈ k.socket, p.Taken s → k.call (.bind fd s.boundPort) ≠ none))

def put (p : Process) (i : Nat) (s : Server) : Process := { p with servers := Function.update p.servers i s }

/-- A start, which returns or throws. -/
def started (strerror : Errno → String) (p : Process) (i : Nat) (k : Kernel) : Process :=
  match start strerror k (p.servers i) with
  | (.ok (), s) => { p.put i s with listening := ⟨i, s.fd, s.kind, s.boundPort⟩ :: p.listening }
  | (.error _, s) => p.put i s

def step (strerror : Errno → String) (p : Process) : Use → Option Process
  | .start i k => if p.Honest (p.servers i) k then some (p.started strerror i k) else none
  | .stop i => some (p.put i (p.servers i).stop)

/-- No server has been started. -/
def Unstarted (p : Process) : Prop := p.listening = []

variable {strerror : Errno → String} {p q : Process} {as bs : List Use}

/-! ## What a start does -/

theorem start_members (strerror : Errno → String) (k : Kernel) (s : Server) :
    (start strerror k s).2.kind = s.kind ∧ (start strerror k s).2.port = s.port := by
  unfold start listenForConnections TCPServer.listenForConnections UDPServer.listenForConnections
  dsimp only
  repeat' split
  all_goals exact ⟨rfl, rfl⟩

/-- A start never gives up a socket. -/
theorem start_keeps (strerror : Errno → String) (k : Kernel) (s : Server) {fd : Socket} (h : fd ∈ s.sockets) :
    fd ∈ (start strerror k s).2.sockets := by
  cases hs : s.running with
  | true =>
    rw [start_of_running hs]
    exact h
  | false =>
    rcases hstart : start strerror k s with ⟨thrown | u, t⟩
    · rcases (start_failed hs hstart).sockets with hsame | ⟨fd', -, hmore, -⟩
      · exact hsame ▸ h
      · exact hmore ▸ List.mem_cons_of_mem (fd' : Socket) h
    · obtain ⟨-, fd', -, rfl⟩ := start_ok hstart
      exact List.mem_cons_of_mem (fd' : Socket) h

/-- A start that returns has bound its socket. -/
theorem start_bound {k : Kernel} {s t : Server} (h : start strerror k s = (.ok (), t)) :
    ∃ fd ∈ k.socket, k.call (.bind fd s.boundPort) = none := by
  obtain ⟨hs, fd, hfd, -⟩ := start_ok h
  rw [start, hs, if_neg Bool.false_ne_true] at h
  unfold listenForConnections TCPServer.listenForConnections UDPServer.listenForConnections at h
  rw [hfd] at h
  dsimp only at h
  refine ⟨fd, hfd, ?_⟩
  split at h
  · split at h
    · cases h
    split at h
    · cases h
    split at h
    · cases h
    split at h
    · cases h
    · assumption
  · split at h
    · cases h
    · assumption

/-- What a step leaves of the servers, and which starts return. -/
structure Moves (p : Process) (a : Use) (q : Process) : Prop where
  kind : ∀ i, (q.servers i).kind = (p.servers i).kind
  port : ∀ i, (q.servers i).boundPort = (p.servers i).boundPort
  sockets : ∀ i, ∀ fd ∈ (p.servers i).sockets, fd ∈ (q.servers i).sockets
  listening : q.listening = p.listening ∨
    ∃ i fd, q.listening = ⟨i, fd, (p.servers i).kind, (p.servers i).boundPort⟩ :: p.listening ∧
      fd ∈ (q.servers i).sockets ∧ ¬ p.Taken (p.servers i)

/-- One server is replaced by another of its kind and port that has kept its sockets. -/
theorem put_servers {s : Server} {i : Nat} (hkind : s.kind = (p.servers i).kind) (hport : s.port = (p.servers i).port)
    (hsockets : ∀ fd ∈ (p.servers i).sockets, fd ∈ s.sockets) (j : Nat) :
    ((p.put i s).servers j).kind = (p.servers j).kind ∧ ((p.put i s).servers j).boundPort = (p.servers j).boundPort ∧
      ∀ fd ∈ (p.servers j).sockets, fd ∈ ((p.put i s).servers j).sockets := by
  unfold put
  dsimp only
  by_cases hj : j = i
  · subst hj
    rw [Function.update_self]
    exact ⟨hkind, congrArg (BitVec.ofInt 16) hport, hsockets⟩
  · rw [Function.update_of_ne hj]
    exact ⟨rfl, rfl, fun _ h => h⟩

theorem moves_step {a : Use} (h : step strerror p a = some q) : Moves p a q := by
  cases a with
  | stop i =>
    obtain rfl := Option.some.inj h
    have hstop := stop_keeps_the_socket (p.servers i)
    have hall := put_servers (s := (p.servers i).stop) (by rw [hstop]) (by rw [hstop]) (by rw [hstop]; exact fun _ h => h)
    exact ⟨fun j => (hall j).1, fun j => (hall j).2.1, fun j => (hall j).2.2, Or.inl rfl⟩
  | start i k =>
    obtain ⟨hhonest, h⟩ := Option.ite_none_right_eq_some.mp h
    obtain rfl := Option.some.inj h
    obtain ⟨hkind, hport⟩ := start_members strerror k (p.servers i)
    have hall := put_servers hkind hport fun fd => start_keeps strerror k (p.servers i)
    unfold started
    rcases hstart : start strerror k (p.servers i) with ⟨thrown | u, s⟩
    all_goals rw [hstart] at hkind hport hall
    · exact ⟨fun j => (hall j).1, fun j => (hall j).2.1, fun j => (hall j).2.2, Or.inl rfl⟩
    · refine ⟨fun j => (hall j).1, fun j => (hall j).2.1, fun j => (hall j).2.2, Or.inr ⟨i, s.fd, ?_, ?_, ?_⟩⟩
      · dsimp only at hkind hport ⊢
        unfold Server.boundPort
        rw [hkind, hport]
      · obtain ⟨-, fd, -, rfl⟩ := start_ok hstart
        show _ ∈ (Function.update p.servers i _ i).sockets
        rw [Function.update_self]
        exact List.mem_cons_self
      · intro htaken
        obtain ⟨fd, hfd, hbound⟩ := start_bound hstart
        exact hhonest fd hfd htaken hbound

/-! ## Runs -/

/-- Two starts do not share a port. -/
def Apart (l m : Listening) : Prop := l.port ≠ 0 → ¬ (l.kind = m.kind ∧ l.port = m.port)

structure Held (p : Process) : Prop where
  held : ∀ l ∈ p.listening, l.fd ∈ (p.servers l.server).sockets
  own : ∀ l ∈ p.listening, l.kind = (p.servers l.server).kind ∧ l.port = (p.servers l.server).boundPort
  apart : p.listening.Pairwise Apart

theorem held_step {a : Use} (h : Held p) (hmoves : Moves p a q) : Held q := by
  have hheld : ∀ l ∈ p.listening, l.fd ∈ (q.servers l.server).sockets :=
    fun l hl => hmoves.sockets l.server l.fd (h.held l hl)
  have hown : ∀ l ∈ p.listening, l.kind = (q.servers l.server).kind ∧ l.port = (q.servers l.server).boundPort := by
    intro l hl
    rw [hmoves.kind, hmoves.port]
    exact h.own l hl
  rcases hmoves.listening with hsame | ⟨i, fd, hnew, hfd, hfree⟩
  · rw [← hsame] at hheld hown
    exact ⟨hheld, hown, hsame ▸ h.apart⟩
  · refine ⟨?_, ?_, ?_⟩
    · rw [hnew]
      exact List.forall_mem_cons.mpr ⟨hfd, hheld⟩
    · rw [hnew]
      exact List.forall_mem_cons.mpr ⟨⟨(hmoves.kind i).symm, (hmoves.port i).symm⟩, hown⟩
    · rw [hnew]
      refine List.pairwise_cons.mpr ⟨?_, h.apart⟩
      intro l hl hport hsame
      -- The socket of `l` is held still, so the port of the new start was in use.
      exact hfree ⟨l, hl, h.held l hl, hsame.1.symm, hsame.2.symm, hsame.2 ▸ hport⟩

theorem held_run (h : Held p) (hrun : run (step strerror) p as = some q) : Held q :=
  run_invariant (fun _ _ _ hheld hs => held_step hheld (moves_step hs)) h hrun

/-- The starts of a server of a port that is taken are over. -/
theorem taken_step {a : Use} {i : Nat} (htaken : p.Taken (p.servers i)) (hmoves : Moves p a q) :
    q.Taken (q.servers i) ∧ q.listening.filter (·.server = i) = p.listening.filter (·.server = i) := by
  obtain ⟨l, hl, hfd, hkind, hport, hne⟩ := htaken
  have hholds : q.Holds l (q.servers i) := by
    unfold Holds
    rw [hmoves.kind, hmoves.port]
    exact ⟨hmoves.sockets l.server l.fd hfd, hkind, hport, hne⟩
  rcases hmoves.listening with hlist | ⟨j, fd, hnew, -, hfree⟩
  · exact ⟨⟨l, hlist ▸ hl, hholds⟩, by rw [hlist]⟩
  · have hji : j ≠ i := by
      intro heq
      subst heq
      exact hfree ⟨l, hl, hfd, hkind, hport, hne⟩
    refine ⟨⟨l, hnew ▸ List.mem_cons_of_mem _ hl, hholds⟩, ?_⟩
    rw [hnew, List.filter_cons_of_neg (by simpa using hji)]

theorem length_filter_le_one {α : Type} {r : α → α → Prop} {f : α → Bool} {l : List α} (hr : l.Pairwise r)
    (hf : ∀ x y, f x = true → f y = true → ¬ r x y) : (l.filter f).length ≤ 1 := by
  have hboth : ∀ x ∈ l.filter f, f x = true := fun x hx => (List.mem_filter.mp hx).2
  have hpair := hr.filter f
  cases hl : l.filter f with
  | nil => exact Nat.zero_le 1
  | cons x rest =>
    cases rest with
    | nil => exact Nat.le_refl 1
    | cons y rest =>
      rw [hl] at hboth hpair
      have hxy := (List.pairwise_cons.mp hpair).1 y List.mem_cons_self
      exact absurd hxy (hf x y (hboth x List.mem_cons_self) (hboth y (List.mem_cons_of_mem _ List.mem_cons_self)))

/-- In every run of starts, which return or throw, and stops of any number of servers: one
    start at most has returned for a port other than 0; every socket of a start that
    returned is still open, stopped or not; and once a port is taken, no start of a server
    that asks for it, of the same one or another, ever returns again. -/
theorem one_start_for_a_port (h0 : Unstarted p) (hrun : run (step strerror) p as = some q) :
    (∀ kind port, port ≠ 0 → (q.listening.filter fun l => l.kind = kind ∧ l.port = port).length ≤ 1) ∧
      (∀ l ∈ q.listening, l.fd ∈ (q.servers l.server).sockets ∧ (l.port ≠ 0 → q.Taken (q.servers l.server))) ∧
      ∀ i, q.Taken (q.servers i) → ∀ bs u, run (step strerror) q bs = some u →
        u.listening.filter (·.server = i) = q.listening.filter (·.server = i) := by
  have hnone : ∀ l, l ∉ p.listening := fun l hl => by rw [h0] at hl; cases hl
  have hstart : Held p := by
    refine ⟨fun l hl => absurd hl (hnone l), fun l hl => absurd hl (hnone l), ?_⟩
    rw [h0]
    exact List.Pairwise.nil
  have hq := held_run hstart hrun
  refine ⟨?_, ?_, ?_⟩
  · intro kind port hport
    refine length_filter_le_one hq.apart ?_
    intro l m hl hm hapart
    obtain ⟨hlk, hlp⟩ := of_decide_eq_true hl
    obtain ⟨hmk, hmp⟩ := of_decide_eq_true hm
    exact hapart (hlp ▸ hport) ⟨hlk.trans hmk.symm, hlp.trans hmp.symm⟩
  · intro l hl
    obtain ⟨hkind, hport⟩ := hq.own l hl
    exact ⟨hq.held l hl, fun hne => ⟨l, hl, hq.held l hl, hkind, hport, hne⟩⟩
  · intro i htaken bs u hrun'
    have hboth : u.Taken (u.servers i) ∧ u.listening.filter (·.server = i) = q.listening.filter (·.server = i) := by
      refine run_invariant (I := fun m => m.Taken (m.servers i) ∧
        m.listening.filter (·.server = i) = q.listening.filter (·.server = i)) ?_ ⟨htaken, rfl⟩ hrun'
      intro m a n hm hs
      obtain ⟨hnext, hlist⟩ := taken_step hm.1 (moves_step hs)
      exact ⟨hnext, hlist.trans hm.2⟩
    exact hboth.2

/-- A server is stopped and started again, then another one of its port. -/
def again : List Use :=
  [.start 0 (willing 3), .stop 0, .start 0 { portInUse with socket := some 4 }, .stop 0,
    .start 1 { portInUse with socket := some 4 }]

def twoServers : Process := ⟨fun _ => aServer, []⟩

theorem unstarted_twoServers : Unstarted twoServers := rfl

theorem one_start_for_a_port_again :
    ∃ q, run (step fun _ => "") twoServers again = some q ∧
      (q.listening, (q.servers 0).sockets, (q.servers 1).sockets) = ([⟨0, 3, .tcp, 19876⟩], [3], []) ∧
      (∀ kind port, port ≠ 0 → (q.listening.filter fun l => l.kind = kind ∧ l.port = port).length ≤ 1) ∧
      (∀ l ∈ q.listening, l.fd ∈ (q.servers l.server).sockets ∧ (l.port ≠ 0 → q.Taken (q.servers l.server))) ∧
      ∀ i, q.Taken (q.servers i) → ∀ bs u, run (step fun _ => "") q bs = some u →
        u.listening.filter (·.server = i) = q.listening.filter (·.server = i) := by
  have hrun : (run (step fun _ => "") twoServers again).map
      (fun q => (q.listening, (q.servers 0).sockets, (q.servers 1).sockets)) =
        some ([⟨0, 3, .tcp, 19876⟩], [3], []) := by decide +kernel
  obtain ⟨q, hq, hlist⟩ := Option.map_eq_some_iff.mp hrun
  exact ⟨q, hq, hlist, one_start_for_a_port unstarted_twoServers hq⟩

end Process

end ComClient.Lifecycle
