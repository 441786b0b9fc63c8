/-
  ComClient.Client.Flag — whether `m_is_connected` governs the calls on one client.

  A run is any sequence of calls on a new client, opens that throw left out. `supplied` is
  the descriptor that the last `open_connection`, `from_socket` or `close_connection`
  supplied, if it supplied one. The flag should say whether there is one, and a transfer
  should use that descriptor, or, without one, return -1 and make no call.

  - `TCP` and `Serial` do, as long as `from_socket` is called on a connected client only: it
    assigns `m_fd` but not the flag.
  - `UDP` never sets the flag nor looks at it (`udp_obeys_iff`): only a run of
    `close_connection` alone shows no difference.
-/

import ComClient.Client.Object
import ComClient.Lts.Run

namespace ComClient.Client

open ComClient.Transport ComClient.Lts

namespace Flag

structure St where
  client : Client
  supplied : Option Int

/-- A client that was never opened; `m_fd` and `m_addr_to` have no value of their own. -/
def fresh (fd : Int) (addrTo : SockAddr) : St := ⟨⟨fd, false, addrTo⟩, none⟩

section

variable (strerror : Errno → String) (kind : Kind)

def step (s : St) (op : Op) : Option St :=
  let o := perform strerror kind s.client op
  match op with
  | .openConnection _ _ _ _ =>
    match o.ended with
    | .returned _ => some ⟨o.client, lastOpened o.effects⟩
    | _ => none
  | .fromSocket fd => some ⟨o.client, some fd⟩
  | .closeConnection _ => some ⟨o.client, none⟩
  | _ => some ⟨o.client, s.supplied⟩

/-- The flag says whether the last of the calls supplied a descriptor. -/
def Right (s : St) : Prop := s.client.isConnected = s.supplied.isSome

def isTransfer : Op → Bool
  | .readS .. | .writeS .. => true
  | _ => false

/-- What the flag asks of a call. -/
def Obeys (s : St) (op : Op) : Prop :=
  isTransfer op = true →
    (s.client.isConnected = false →
      (perform strerror kind s.client op).ended = .returned (-1) ∧ (perform strerror kind s.client op).effects = []) ∧
    (s.client.isConnected = true →
      ∃ fd, s.supplied = some fd ∧ OnlyUses fd (perform strerror kind s.client op).effects)

/-- Of TCP and serial clients, no `from_socket` without a connection; of a UDP client,
    nothing but `close_connection`. -/
def Allowed (s : St) (op : Op) : Prop :=
  match kind, op with
  | .udp, .closeConnection _ => True
  | .udp, _ => False
  | _, .fromSocket _ => s.client.isConnected = true
  | _, _ => True

end

variable {strerror : Errno → String} {kind : Kind} {s t : St} {op : Op}

/-! ## One call -/

/-- `m_fd` is the descriptor that was supplied. -/
def Tracks (s : St) : Prop := ∀ fd, s.supplied = some fd → s.client.fd = fd

theorem open_step {k : Kernel} {address : String} {opt flags : Int}
    (h : step strerror kind s (.openConnection k address opt flags) = some t) :
    ∃ fd : Int, t.supplied = some fd ∧ t.client.fd = fd ∧ t.client.isConnected = (kind.connects || s.client.isConnected) := by
  simp only [step, perform] at h
  split at h
  · rename_i n hended
    obtain ⟨fd, hlast, hfd, hflag⟩ := open_returned hended
    cases h
    exact ⟨fd, hlast, hfd, hflag⟩
  · cases h

theorem transfer_step (hop : isTransfer op = true) (h : step strerror kind s op = some t) :
    t.supplied = s.supplied ∧ t.client.fd = s.client.fd ∧ t.client.isConnected = s.client.isConnected := by
  cases op with
  | readS buffer size hasCrc readUntil input =>
    cases h
    exact ⟨rfl, readS_members hasCrc readUntil input⟩
  | writeS accept buffer size addCrc =>
    cases h
    refine ⟨rfl, ?_, ?_⟩
    · exact congrArg Client.fd (writeS_members accept addCrc)
    · exact congrArg Client.isConnected (writeS_members accept addCrc)
  | openConnection => cases hop
  | fromSocket => cases hop
  | closeConnection => cases hop

theorem step_tracks (hs : Tracks s) (h : step strerror kind s op = some t) : Tracks t := by
  cases op with
  | openConnection k address opt flags =>
    obtain ⟨fd, hsupplied, hfd, -⟩ := open_step h
    intro fd' h'
    rw [hfd]
    exact Option.some.inj (hsupplied.symm.trans h')
  | fromSocket fd =>
    cases h
    intro fd' h'
    exact Option.some.inj h'
  | closeConnection n =>
    cases h
    intro fd' h'
    cases h'
  | readS buffer size hasCrc readUntil input =>
    obtain ⟨hsupplied, hfd, -⟩ := transfer_step rfl h
    intro fd' h'
    rw [hfd]
    exact hs fd' (hsupplied ▸ h')
  | writeS accept buffer size addCrc =>
    obtain ⟨hsupplied, hfd, -⟩ := transfer_step rfl h
    intro fd' h'
    rw [hfd]
    exact hs fd' (hsupplied ▸ h')

/-- A transfer of a stream client, in a state where the flag is right. -/
theorem obeys_of_stream (hkind : kind ≠ .udp) (hs : Tracks s) (hr : Right s) : Obeys strerror kind s op := by
  intro hop
  have hsupplied : s.client.isConnected = true → s.supplied = some s.client.fd := by
    intro hc
    obtain ⟨fd, hfd⟩ := Option.isSome_iff_exists.mp (hr.symm.trans hc)
    rw [hfd, hs fd hfd]
  cases op with
  | readS buffer size hasCrc readUntil input =>
    refine ⟨?_, ?_⟩
    · intro hc
      simp [perform, readS_disconnected hkind hc]
    · intro hc
      exact ⟨_, hsupplied hc, readS_connected hc hasCrc readUntil input⟩
  | writeS accept buffer size addCrc =>
    refine ⟨?_, ?_⟩
    · intro hc
      simp [perform, writeS_disconnected hkind hc]
    · intro hc
      exact ⟨_, hsupplied hc, writeS_connected hc accept addCrc⟩
  | openConnection => cases hop
  | fromSocket => cases hop
  | closeConnection => cases hop

theorem stream_step_iff (hkind : kind ≠ .udp) (hs : Tracks s) (hr : Right s) (h : step strerror kind s op = some t) :
    Obeys strerror kind s op ∧ Right t ↔ Allowed kind s op := by
  have hobeys : Obeys strerror kind s op := obeys_of_stream hkind hs hr
  have hconnects : kind.connects = true := by
    cases kind with
    | udp => exact absurd rfl hkind
    | tcp => rfl
    | serial => rfl
  have hallowed : Allowed kind s op ↔ ∀ fd, op = .fromSocket fd → s.client.isConnected = true := by
    cases kind with
    | udp => exact absurd rfl hkind
    | tcp => cases op <;> simp [Allowed]
    | serial => cases op <;> simp [Allowed]
  rw [and_iff_right hobeys, hallowed]
  cases op with
  | openConnection k address opt flags =>
    obtain ⟨fd, hsupplied, -, hflag⟩ := open_step h
    simp [Right, hsupplied, hflag, hconnects]
  | fromSocket fd =>
    cases h
    simp [Right, perform, fromSocket]
  | closeConnection n =>
    cases h
    simp [Right, perform, closeConnection]
  | readS buffer size hasCrc readUntil input =>
    obtain ⟨hsupplied, -, hflag⟩ := transfer_step rfl h
    simpa [Right, hsupplied, hflag] using hr
  | writeS accept buffer size addCrc =>
    obtain ⟨hsupplied, -, hflag⟩ := transfer_step rfl h
    simpa [Right, hsupplied, hflag] using hr

/-- A UDP client before any descriptor was supplied. -/
theorem udp_step_iff (hc : s.client.isConnected = false) (h : step strerror .udp s op = some t) :
    Obeys strerror .udp s op ∧ Right t ↔ Allowed .udp s op := by
  cases op with
  | openConnection k address opt flags =>
    obtain ⟨fd, hsupplied, -, hflag⟩ := open_step h
    simp [Allowed, Right, hsupplied, hflag, hc, Kind.connects]
  | fromSocket fd =>
    cases h
    simp [Allowed, Right, perform, fromSocket, hc]
  | closeConnection n =>
    cases h
    simp [Allowed, Obeys, isTransfer, Right, perform, closeConnection]
  | readS buffer size hasCrc readUntil input =>
    refine ⟨?_, fun h => h.elim⟩
    intro hobeys
    exact ((readS_udp hasCrc readUntil input).1 ((hobeys.1 rfl).1 hc).2).elim
  | writeS accept buffer size addCrc =>
    refine ⟨?_, fun h => h.elim⟩
    intro hobeys
    exact ((writeS_udp accept addCrc).1 ((hobeys.1 rfl).1 hc).2).elim

/-! ## A run of calls -/

theorem udp_stays_disconnected (hc : s.client.isConnected = false) (h : step strerror .udp s op = some t) :
    t.client.isConnected = false := by
  cases op with
  | openConnection k address opt flags =>
    obtain ⟨fd, -, -, hflag⟩ := open_step h
    simpa [Kind.connects, hc] using hflag
  | fromSocket fd =>
    cases h
    exact hc
  | closeConnection n =>
    cases h
    rfl
  | readS buffer size hasCrc readUntil input =>
    obtain ⟨-, -, hflag⟩ := transfer_step rfl h
    exact hflag.trans hc
  | writeS accept buffer size addCrc =>
    obtain ⟨-, -, hflag⟩ := transfer_step rfl h
    exact hflag.trans hc

/-- For every kind of client and every run of calls on a new one: the flag is right in every
    state and governs every transfer, if and only if every call is allowed. -/
theorem flag_governs_iff {fd : Int} {addrTo : SockAddr} {as : List Op}
    (hrun : run (step strerror kind) (fresh fd addrTo) as = some t) :
    Always (step strerror kind) Right (fresh fd addrTo) as ∧
        Meets (step strerror kind) (Obeys strerror kind) (fresh fd addrTo) as ↔
      Meets (step strerror kind) (Allowed kind) (fresh fd addrTo) as := by
  by_cases hkind : kind = .udp
  · subst hkind
    refine always_and_meets_iff (J := fun s => s.client.isConnected = false) ?_ ?_ rfl rfl hrun
    · intro s op t hc h
      exact udp_stays_disconnected hc h
    · intro s op t hc _ h
      exact udp_step_iff hc h
  · refine always_and_meets_iff (J := Tracks) ?_ ?_ rfl ?_ hrun
    · intro s op t hs h
      exact step_tracks hs h
    · intro s op t hs hr h
      exact stream_step_iff hkind hs hr h
    · intro fd h
      cases h

def buffer4 : Mem := memOf [1, 2, 3, 4]

/-- Accepts whatever it is given. -/
def acceptAll (bytes : List Byte) : Int := bytes.length

def opened : Op := .openConnection ⟨⟨some 3, fun _ => some 0x7f000001, fun _ => none, fun _ => none, fun _ => none,
  fun _ => none, some 0⟩, plugged 3⟩ "localhost" 5000 (-1)

def written : Op := .writeS acceptAll buffer4 (toSizeT 4) false

/-- An open TCP client, closed and used once more. -/
theorem flag_governs_a_closed_client :
    ∃ t, run (step (fun _ => "") .tcp) (fresh 0 ⟨0, 0⟩) [opened, written, .closeConnection 0, written] = some t ∧
      (Always (step (fun _ => "") .tcp) Right (fresh 0 ⟨0, 0⟩) [opened, written, .closeConnection 0, written] ∧
          Meets (step (fun _ => "") .tcp) (Obeys (fun _ => "") .tcp) (fresh 0 ⟨0, 0⟩)
            [opened, written, .closeConnection 0, written] ↔
        Meets (step (fun _ => "") .tcp) (Allowed .tcp) (fresh 0 ⟨0, 0⟩) [opened, written, .closeConnection 0, written]) := by
  have hrun : run (step (fun _ => "") .tcp) (fresh 0 ⟨0, 0⟩) [opened, written, .closeConnection 0, written] =
      some ⟨⟨3, false, ⟨0, 0⟩⟩, none⟩ := rfl
  exact ⟨_, hrun, flag_governs_iff hrun⟩

/-- `UDP` reports no connection after an open, and writes to its socket all the same; `TCP`
    reports none after `from_socket`, and refuses to write to the socket it was given. -/
theorem an_open_udp_client_reports_no_connection :
    (∃ t, run (step (fun _ => "") .udp) (fresh 0 ⟨0, 0⟩) [opened] = some t ∧ t.supplied = some 3 ∧
      t.client.isConnected = false ∧ (perform (fun _ => "") .udp t.client written).effects = [.used 3] ∧
      ¬ Right t ∧ ¬ Obeys (fun _ => "") .udp t written) ∧
    ∃ t, run (step (fun _ => "") .tcp) (fresh 0 ⟨0, 0⟩) [.fromSocket 3] = some t ∧ t.supplied = some 3 ∧
      t.client.isConnected = false ∧ (perform (fun _ => "") .tcp t.client written).ended = .returned (-1) ∧ ¬ Right t := by
  refine ⟨⟨_, rfl, rfl, rfl, rfl, nofun, ?_⟩, ⟨_, rfl, rfl, rfl, rfl, nofun⟩⟩
  intro hobeys
  cases ((hobeys rfl).1 rfl).2

end Flag

end ComClient.Client
