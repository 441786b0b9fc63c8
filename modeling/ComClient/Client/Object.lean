/-
  ComClient.Client.Object — a client as an object with its virtual calls, for the results
  about any sequence of them.

  `perform` is one call on a client of some kind, with what the kernel answers; its outcome
  lists what the call did to descriptors, reads and writes included. What each call leaves
  of the members is in `open_returned`, `readS_members` and `writeS_members`, which
  descriptors a transfer uses in `readS_disconnected` to `writeS_udp`.
-/

import ComClient.Client.Open
import ComClient.Transport.ReadLoop

namespace ComClient.Client

open ComClient.Transport

inductive Kind where
  | tcp
  | serial
  | udp
  deriving DecidableEq, Repr

/-- The answers to the calls of an `open_connection`, whichever it is. -/
structure Kernel where
  net : Net
  devices : Devices

/-- What a `readS` finds: the bytes and the pieces they come in, or the datagrams. -/
structure Input where
  inbox : List Byte
  answers : List Answer
  dgrams : List Dgram

/-- A call of the user. -/
inductive Op where
  | openConnection (k : Kernel) (address : String) (opt flags : Int)
  | fromSocket (s : Int)
  | closeConnection (n : Int)
  | readS (buffer : Mem) (size : SizeT) (hasCrc readUntil : Bool) (input : Input)
  | writeS (accept : List Byte → Int) (buffer : Mem) (size : SizeT) (addCrc : Bool)

def ofStatus : Status → Ended
  | .returned n => .returned n
  | .blocked => .blocked
  | .undefined => .undefined

/-- The outcome of a `readS` that made the calls `r.calls`. -/
def ofRun {κ ε : Type} (c : Client) (r : Run κ ε) : Outcome := ⟨ofStatus r.status, c, r.calls.map fun k => .used k.fd⟩

def ofWritten (c : Client) (w : Written) : Outcome := ⟨.returned w.ret, c, w.sent.toList.map fun s => .used s.fd⟩

section

variable (strerror : Errno → String) (kind : Kind)

def Kind.openConnection (k : Kernel) (address : String) (opt flags : Int) (c : Client) : Outcome :=
  match kind with
  | .tcp => TCP.openConnection strerror k.net address opt flags c
  | .serial => Serial.openConnection k.devices address opt c
  | .udp => UDP.openConnection k.net address opt c

def Kind.readS (buffer : Mem) (size : SizeT) (hasCrc readUntil : Bool) (input : Input) (c : Client) : Outcome :=
  match kind with
  | .tcp => ofRun c (TCP.readS c buffer size hasCrc readUntil input.inbox input.answers)
  | .serial => ofRun c (Serial.readS c buffer size hasCrc readUntil input.inbox input.answers)
  | .udp =>
    let r := UDP.readS c buffer size hasCrc readUntil input.dgrams
    ofRun { c with addrTo := r.kernel } r

def Kind.writeS (accept : List Byte → Int) (buffer : Mem) (size : SizeT) (addCrc : Bool) (c : Client) : Outcome :=
  match kind with
  | .tcp => ofWritten c (TCP.writeS c accept buffer size addCrc)
  | .serial => ofWritten c (Serial.writeS c accept buffer size addCrc)
  | .udp => ofWritten c (UDP.writeS c accept buffer size addCrc)

def perform (c : Client) : Op → Outcome
  | .openConnection k address opt flags => kind.openConnection strerror k address opt flags c
  | .fromSocket s => ⟨.returned 0, fromSocket s c, []⟩
  | .closeConnection n => closeConnection n c
  | .readS buffer size hasCrc readUntil input => kind.readS buffer size hasCrc readUntil input c
  | .writeS accept buffer size addCrc => kind.writeS accept buffer size addCrc c

end

/-! ## What an open leaves -/

/-- The descriptor opened last. -/
def lastOpened (effects : List Effect) : Option Int :=
  effects.foldl (fun fd e => match e with | .opened fd _ => some fd | _ => fd) none

theorem lastOpened_append (effects : List Effect) (fd : Int) (file : File) :
    lastOpened (effects ++ [.opened fd file]) = some fd := List.foldl_append

theorem findDevice_lastOpened {k : Devices} {path : String} {fd : Nat} (h : (findDevice k path).1 = some fd) :
    lastOpened (findDevice k path).2 = some (fd : Int) := by
  obtain ⟨before, file, hlast⟩ := findDevice_last h
  rw [hlast, lastOpened_append]

theorem udp_open {k : Net} {fd : Nat} (hfd : k.socket = some fd) (address : String) (port : Int) (c : Client) :
    (UDP.openConnection k address port c).effects = [.opened fd .socket] ∧
      (UDP.openConnection k address port c).client.fd = fd ∧
      (UDP.openConnection k address port c).client.isConnected = c.isConnected := by
  unfold UDP.openConnection
  simp only [hfd]
  split <;> exact ⟨rfl, rfl, rfl⟩

/-- Whether `open_connection` sets the flag. -/
def Kind.connects : Kind → Bool
  | .udp => false
  | _ => true

/-- An open that returns normally. -/
theorem open_returned {strerror : Errno → String} {kind : Kind} {k : Kernel} {address : String} {opt flags n : Int}
    {c : Client} (h : (kind.openConnection strerror k address opt flags c).ended = .returned n) :
    ∃ fd : Nat, lastOpened (kind.openConnection strerror k address opt flags c).effects = some (fd : Int) ∧
      (kind.openConnection strerror k address opt flags c).client.fd = fd ∧
      (kind.openConnection strerror k address opt flags c).client.isConnected = (kind.connects || c.isConnected) := by
  cases kind with
  | tcp =>
    simp only [Kind.openConnection] at h ⊢
    cases hfd : k.net.socket with
    | none => simp [tcp_open_no_socket strerror hfd] at h
    | some fd =>
      obtain ⟨heffects, hclient⟩ := tcp_open strerror (c := c) hfd address opt flags
      rw [h] at hclient
      exact ⟨fd, by rw [heffects]; rfl, by rw [hclient]; rfl, by rw [hclient]; rfl⟩
  | serial =>
    simp only [Kind.openConnection] at h ⊢
    cases hfd : (findDevice k.devices address).1 with
    | none => simp [serial_open_no_device hfd] at h
    | some fd =>
      obtain ⟨heffects, hclient⟩ := serial_open (c := c) hfd opt
      rw [h] at hclient
      exact ⟨fd, by rw [heffects]; exact findDevice_lastOpened hfd, by rw [hclient]; rfl, by rw [hclient]; rfl⟩
  | udp =>
    simp only [Kind.openConnection] at h ⊢
    cases hfd : k.net.socket with
    | none => simp [UDP.openConnection, hfd] at h
    | some fd =>
      obtain ⟨heffects, hmfd, hflag⟩ := udp_open hfd address opt c
      exact ⟨fd, by rw [heffects]; rfl, hmfd, hflag⟩

/-! ## What a transfer uses -/

/-- Transfers on `fd`, at least one. -/
def OnlyUses (fd : Int) (effects : List Effect) : Prop := effects ≠ [] ∧ ∀ e ∈ effects, e = .used fd

section

variable {κ ε : Type} (d : Device κ ε)

theorem callsFrom_fds (fd : Int) (size : SizeT) (go : Bool) (n : Int) (buf : Mem) (k : κ) (es : List ε) :
    (callsFrom d fd size go n buf k es).calls ≠ [] ∧ ∀ c ∈ (callsFrom d fd size go n buf k es).calls, c.fd = fd := by
  induction es generalizing n buf k with
  | nil => simp [callsFrom]
  | cons e es ih =>
    simp only [callsFrom]
    repeat' split
    · refine ⟨by simp [Run.after], ?_⟩
      intro c hc
      rcases List.mem_cons.mp hc with rfl | hc
      · rfl
      · exact (ih _ _ _).2 c hc
    · simp
    · simp

theorem readBody_uses (c : Client) (fd : Int) (buffer : Mem) (size : SizeT) (hasCrc readUntil : Bool) (k : κ)
    (es : List ε) : OnlyUses fd (ofRun c (readBody d fd buffer size hasCrc readUntil k es)).effects := by
  have hcalls := callsFrom_fds d fd size readUntil 0 buffer k es
  rw [← readCalls_eq, ← readBody_calls] at hcalls
  refine ⟨by simpa [ofRun] using hcalls.1, ?_⟩
  intro e he
  obtain ⟨k', hk, rfl⟩ := List.mem_map.mp he
  rw [hcalls.2 k' hk]

end

section

variable {kind : Kind} {buffer : Mem} {size : SizeT} {c : Client}

theorem readS_members (hasCrc readUntil : Bool) (input : Input) :
    (kind.readS buffer size hasCrc readUntil input c).client.fd = c.fd ∧
      (kind.readS buffer size hasCrc readUntil input c).client.isConnected = c.isConnected := by
  cases kind <;> exact ⟨rfl, rfl⟩

theorem writeS_members (accept : List Byte → Int) (addCrc : Bool) :
    (kind.writeS accept buffer size addCrc c).client = c := by
  cases kind <;> rfl

theorem readS_disconnected (hkind : kind ≠ .udp) (hc : c.isConnected = false) (hasCrc readUntil : Bool)
    (input : Input) : kind.readS buffer size hasCrc readUntil input c = ⟨.returned (-1), c, []⟩ := by
  cases kind with
  | udp => exact absurd rfl hkind
  | tcp => simp [Kind.readS, TCP.readS, hc, ofRun, notConnected, ofStatus]
  | serial => simp [Kind.readS, Serial.readS, hc, ofRun, notConnected, ofStatus]

theorem readS_connected (hc : c.isConnected = true) (hasCrc readUntil : Bool) (input : Input) :
    OnlyUses c.fd (kind.readS buffer size hasCrc readUntil input c).effects := by
  cases kind with
  | tcp =>
    simp only [Kind.readS, TCP.readS, hc, if_true]
    exact readBody_uses stream c c.fd buffer size hasCrc readUntil input.inbox input.answers
  | serial =>
    simp only [Kind.readS, Serial.readS, hc, if_true]
    exact readBody_uses stream c c.fd buffer size hasCrc readUntil input.inbox input.answers
  | udp => exact readBody_uses datagrams _ c.fd buffer size hasCrc readUntil c.addrTo input.dgrams

theorem readS_udp (hasCrc readUntil : Bool) (input : Input) :
    OnlyUses c.fd (Kind.udp.readS buffer size hasCrc readUntil input c).effects :=
  readBody_uses datagrams _ c.fd buffer size hasCrc readUntil c.addrTo input.dgrams

theorem onlyUses_singleton (fd : Int) : OnlyUses fd [.used fd] := by
  refine ⟨by simp, ?_⟩
  intro e he
  exact List.mem_singleton.mp he

theorem writeS_disconnected (hkind : kind ≠ .udp) (hc : c.isConnected = false) (accept : List Byte → Int)
    (addCrc : Bool) : kind.writeS accept buffer size addCrc c = ⟨.returned (-1), c, []⟩ := by
  cases kind with
  | udp => exact absurd rfl hkind
  | tcp => simp [Kind.writeS, TCP.writeS, hc, ofWritten]
  | serial => simp [Kind.writeS, Serial.writeS, hc, ofWritten]

theorem writeS_connected (hc : c.isConnected = true) (accept : List Byte → Int) (addCrc : Bool) :
    OnlyUses c.fd (kind.writeS accept buffer size addCrc c).effects := by
  cases kind with
  | tcp =>
    simp only [Kind.writeS, TCP.writeS, hc]
    exact onlyUses_singleton c.fd
  | serial =>
    simp only [Kind.writeS, Serial.writeS, hc]
    exact onlyUses_singleton c.fd
  | udp => exact onlyUses_singleton c.fd

theorem writeS_udp (accept : List Byte → Int) (addCrc : Bool) :
    OnlyUses c.fd (Kind.udp.writeS accept buffer size addCrc c).effects := onlyUses_singleton c.fd

end

end ComClient.Client
