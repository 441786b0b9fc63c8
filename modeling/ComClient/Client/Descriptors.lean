/-
  ComClient.Client.Descriptors — two clients and the descriptor table of their process.

  Every open in the table takes the lowest number that is free, and an entry remembers who
  opened it. A run is any interleaving of calls on the two clients; calls of theirs that
  throw, and `from_socket`, are left out.

  `close_connection` closes the number in `m_fd` and leaves it there. Called again, or on a
  client that was never opened, it closes whatever has that number by then; and a UDP client
  reads and writes that number without asking whether it is open
  (`a_second_close_closes_the_other`). As long as a client is closed, and a UDP client used,
  only while it is open, no call touches what the other one has open (`apart_of_careful`).
-/

import ComClient.Client.Object
import ComClient.Lts.Run

namespace ComClient.Client

open ComClient.Transport ComClient.Lts

namespace Descriptors

inductive Who where
  | a
  | b
  deriving DecidableEq, Repr

def Who.other : Who → Who
  | .a => .b
  | .b => .a

inductive Owner where
  | client (w : Who)
  /-- The rest of the process. -/
  | process
  deriving DecidableEq, Repr

/-- Who opened a descriptor that is open. -/
abbrev Table := Int → Option Owner

def LowestFree (table : Table) (fd : Int) : Prop :=
  0 ≤ fd ∧ table fd = none ∧ ∀ m < fd.toNat, table m ≠ none

instance (table : Table) (fd : Int) : Decidable (LowestFree table fd) := by
  unfold LowestFree
  infer_instance

/-- The table after what `w` did, if the numbers it got are the lowest free ones. -/
def replay (w : Who) : Table → List Effect → Option Table
  | table, [] => some table
  | table, .opened fd _ :: es =>
    if LowestFree table fd then replay w (Function.update table fd (some (.client w))) es else none
  | table, .closed fd :: es => replay w (Function.update table fd none) es
  | table, .used _ :: es => replay w table es

/-- Nothing that `w` does is done to a descriptor of the other client. -/
def Clean (w : Who) : Table → List Effect → Prop
  | _, [] => True
  | table, .opened fd _ :: es => Clean w (Function.update table fd (some (.client w))) es
  | table, .closed fd :: es => table fd ≠ some (.client w.other) ∧ Clean w (Function.update table fd none) es
  | table, .used fd :: es => table fd ≠ some (.client w.other) ∧ Clean w table es

structure St where
  client : Who → Client
  /-- Opened, and not closed since. -/
  isOpen : Who → Bool
  table : Table

def isOpenAfter (now : Bool) : Op → Bool
  | .openConnection _ _ _ _ => true
  | .closeConnection _ => false
  | _ => now

/-- An open that throws and a `from_socket` are not taken. -/
def taken (op : Op) (ended : Ended) : Bool :=
  match op, ended with
  | .openConnection _ _ _ _, .returned _ => true
  | .openConnection _ _ _ _, _ => false
  | .fromSocket _, _ => false
  | _, _ => true

section

variable (strerror : Errno → String) (kind : Who → Kind)

def step (s : St) (a : Who × Op) : Option St :=
  let o := perform strerror (kind a.1) (s.client a.1) a.2
  if taken a.2 o.ended then
    (replay a.1 s.table o.effects).map fun table =>
      ⟨Function.update s.client a.1 o.client, Function.update s.isOpen a.1 (isOpenAfter (s.isOpen a.1) a.2), table⟩
  else none

/-- Two new clients, with any value in their `m_fd`. -/
structure New (s : St) : Prop where
  unconnected : ∀ w, (s.client w).isConnected = false
  closed : ∀ w, s.isOpen w = false
  none : ∀ fd w, s.table fd ≠ some (.client w)

/-- The call leaves the descriptors of the other client alone. -/
def Apart (s : St) (a : Who × Op) : Prop := Clean a.1 s.table (perform strerror (kind a.1) (s.client a.1) a.2).effects

/-- A client is closed, and a UDP client used, only while it is open. -/
def Careful (s : St) (a : Who × Op) : Prop :=
  match a.2 with
  | .closeConnection _ => s.isOpen a.1 = true
  | .readS _ _ _ _ _ => kind a.1 = .udp → s.isOpen a.1 = true
  | .writeS _ _ _ _ => kind a.1 = .udp → s.isOpen a.1 = true
  | _ => True

instance (s : St) : ∀ a, Decidable (Careful kind s a)
  | (w, .closeConnection _) => inferInstanceAs (Decidable (s.isOpen w = true))
  | (w, .readS _ _ _ _ _) => inferInstanceAs (Decidable (kind w = .udp → s.isOpen w = true))
  | (w, .writeS _ _ _ _) => inferInstanceAs (Decidable (kind w = .udp → s.isOpen w = true))
  | (_, .openConnection _ _ _ _) => isTrue trivial
  | (_, .fromSocket _) => isTrue trivial

end

variable {strerror : Errno → String} {kind : Who → Kind} {s t : St} {w : Who} {table table' : Table}
  {effects : List Effect}

/-! ## Replaying a call -/

theorem replay_append {effects' : List Effect} :
    replay w table (effects ++ effects') = (replay w table effects).bind fun t => replay w t effects' := by
  induction effects generalizing table with
  | nil => rfl
  | cons e es ih =>
    cases e with
    | opened fd file =>
      simp only [List.cons_append, replay]
      by_cases hfd : LowestFree table fd
      · simp only [if_pos hfd]
        exact ih
      · simp only [if_neg hfd]
        rfl
    | closed fd => exact ih
    | used fd => exact ih

/-- What a clean call leaves to the other client. -/
theorem replay_keeps {fd : Int} (hclean : Clean w table effects) (h : replay w table effects = some table')
    (hfd : table fd = some (.client w.other)) : table' fd = some (.client w.other) := by
  induction effects generalizing table with
  | nil =>
    cases h
    exact hfd
  | cons e es ih =>
    cases e with
    | opened fd' file =>
      simp only [replay] at h
      by_cases hfree : LowestFree table fd'
      · rw [if_pos hfree] at h
        have hne : fd ≠ fd' := by
          rintro rfl
          rw [hfree.2.1] at hfd
          cases hfd
        refine ih hclean h ?_
        rw [Function.update_of_ne hne]
        exact hfd
      · rw [if_neg hfree] at h
        cases h
    | closed fd' =>
      have hne : fd ≠ fd' := by
        rintro rfl
        exact hclean.1 hfd
      refine ih hclean.2 h ?_
      rw [Function.update_of_ne hne]
      exact hfd
    | used fd' => exact ih hclean.2 h hfd

theorem other_ne (w : Who) : w ≠ w.other := by cases w <;> nofun

/-- The scan closes only what it has opened itself. -/
theorem scan_clean (w : Who) (table : Table) (k : Devices) (devName : String) (n i : Nat) :
    Clean w table (scan k devName n i).2 := by
  induction n generalizing table i with
  | zero => trivial
  | succ n ih =>
    rw [scan]
    cases k.openEvent i with
    | none => exact ih table (i + 1)
    | some fd =>
      dsimp only
      by_cases hfd : fd > 0
      · by_cases hname : devName = k.eventName i
        · rw [if_pos hfd, if_pos hname]
          trivial
        · rw [if_pos hfd, if_neg hname]
          refine ⟨?_, ih _ (i + 1)⟩
          rw [Function.update_self]
          intro h
          cases other_ne w (Owner.client.inj (Option.some.inj h))
      · rw [if_neg hfd]
        exact ih _ (i + 1)

theorem clean_append_opened (h : Clean w table effects) (fd : Int) (file : File) :
    Clean w table (effects ++ [.opened fd file]) := by
  induction effects generalizing table with
  | nil => trivial
  | cons e es ih =>
    cases e with
    | opened fd' file' => exact ih h
    | closed fd' => exact ⟨h.1, ih h.2⟩
    | used fd' => exact ⟨h.1, ih h.2⟩

theorem replay_append_opened {fd : Int} {file : File}
    (h : replay w table (effects ++ [.opened fd file]) = some table') : table' fd = some (.client w) := by
  rw [replay_append] at h
  obtain ⟨m, -, h⟩ := Option.bind_eq_some_iff.mp h
  simp only [replay] at h
  by_cases hfree : LowestFree m fd
  · rw [if_pos hfree] at h
    cases h
    rw [Function.update_self]
  · rw [if_neg hfree] at h
    cases h

/-- An `open_connection` ends with the descriptor it returns with, and closes only what it
    has opened itself. -/
structure Opens (o : Outcome) : Prop where
  clean : ∀ w table, Clean w table o.effects
  last : ∀ n, o.ended = .returned n → ∃ pre file, o.effects = pre ++ [.opened o.client.fd file]

theorem opens_socket {o : Outcome} {fd : Int} (heffects : o.effects = [.opened fd .socket]) (hfd : o.client.fd = fd) :
    Opens o := by
  refine ⟨?_, ?_⟩
  · intro w table
    rw [heffects]
    trivial
  · intro n _
    exact ⟨[], .socket, by rw [heffects, hfd]; rfl⟩

theorem opens_nothing {thrown : Thrown} (c : Client) : Opens ⟨.threw thrown, c, []⟩ :=
  ⟨fun _ _ => trivial, fun _ h => nomatch h⟩

theorem members_fd (connects : Bool) (c : Client) (fd : Int) (ended : Ended) : (ended.members connects c fd).fd = fd := by
  cases ended <;> rfl

theorem findDevice_opens (k : Devices) (path : String) :
    (∀ w table, Clean w table (findDevice k path).2) ∧
      ∀ fd, (findDevice k path).1 = some fd → ∃ pre file, (findDevice k path).2 = pre ++ [.opened (fd : Int) file] := by
  unfold findDevice
  cases k.openPath with
  | some fd =>
    refine ⟨fun _ _ => trivial, ?_⟩
    intro fd' h
    cases h
    exact ⟨[], .path, rfl⟩
  | none =>
    dsimp only
    cases k.reopen (scan k path 40 0).1 with
    | none => exact ⟨fun w table => scan_clean w table k path 40 0, fun _ h => nomatch h⟩
    | some fd =>
      refine ⟨?_, ?_⟩
      · intro w table
        exact clean_append_opened (scan_clean w table k path 40 0) fd _
      · intro fd' h
        cases h
        exact ⟨_, _, rfl⟩

theorem openConnection_opens (strerror : Errno → String) (kind : Kind) (k : Kernel) (address : String)
    (opt flags : Int) (c : Client) : Opens (kind.openConnection strerror k address opt flags c) := by
  cases kind with
  | tcp =>
    unfold Kind.openConnection
    cases hfd : k.net.socket with
    | none =>
      rw [tcp_open_no_socket strerror hfd]
      exact opens_nothing _
    | some fd =>
      obtain ⟨heffects, hclient⟩ := tcp_open strerror (c := c) hfd address opt flags
      exact opens_socket heffects (by rw [hclient, members_fd])
  | serial =>
    unfold Kind.openConnection
    obtain ⟨hclean, hlast⟩ := findDevice_opens k.devices address
    cases hfd : (findDevice k.devices address).1 with
    | none =>
      rw [serial_open_no_device hfd]
      exact ⟨hclean, fun _ h => nomatch h⟩
    | some fd =>
      obtain ⟨heffects, hclient⟩ := serial_open (c := c) hfd opt
      refine ⟨?_, ?_⟩
      · rw [heffects]
        exact hclean
      · intro n _
        rw [heffects, hclient, members_fd]
        exact hlast fd hfd
  | udp =>
    unfold Kind.openConnection
    cases hfd : k.net.socket with
    | none =>
      simp only [UDP.openConnection, hfd]
      exact opens_nothing _
    | some fd =>
      obtain ⟨heffects, hmfd, -⟩ := udp_open hfd address opt c
      exact opens_socket heffects hmfd

theorem onlyUses_clean {fd : Int} (h : OnlyUses fd effects) (hfd : table fd ≠ some (.client w.other)) :
    Clean w table effects := by
  obtain ⟨-, h⟩ := h
  induction effects with
  | nil => trivial
  | cons e es ih =>
    obtain ⟨he, hes⟩ := List.forall_mem_cons.mp h
    rw [he]
    exact ⟨hfd, ih hes⟩

theorem onlyUses_replay {fd : Int} (h : OnlyUses fd effects) : replay w table effects = some table := by
  obtain ⟨-, h⟩ := h
  induction effects with
  | nil => rfl
  | cons e es ih =>
    obtain ⟨he, hes⟩ := List.forall_mem_cons.mp h
    rw [he]
    exact ih hes

/-! ## A run of calls -/

/-- A client that is open has its own descriptor in `m_fd`, and one that is connected is
    open. -/
structure Inv (s : St) : Prop where
  mine : ∀ w, s.isOpen w = true → s.table (s.client w).fd = some (.client w)
  connected : ∀ w, (s.client w).isConnected = true → s.isOpen w = true

/-- Whoever has a descriptor of its own in `m_fd` does not have one of the other's. -/
theorem not_other {fd : Int} (h : table fd = some (.client w)) : table fd ≠ some (.client w.other) := by
  intro h'
  exact other_ne w (Owner.client.inj (Option.some.inj (h.symm.trans h')))

/-- A transfer on `c` makes no call, or uses `m_fd`, which it does not do without a connection
    unless it is a UDP client. -/
def Transfer (kind : Kind) (c : Client) (o : Outcome) : Prop :=
  (o.client.fd = c.fd ∧ o.client.isConnected = c.isConnected) ∧
    (o.effects = [] ∨ OnlyUses c.fd o.effects ∧ (kind ≠ .udp → c.isConnected = true))

theorem readS_transfer (kind : Kind) (c : Client) (buffer : Mem) (size : SizeT) (hasCrc readUntil : Bool) (input : Input) :
    Transfer kind c (kind.readS buffer size hasCrc readUntil input c) := by
  refine ⟨readS_members hasCrc readUntil input, ?_⟩
  by_cases hkind : kind = .udp
  · subst hkind
    exact Or.inr ⟨readS_udp hasCrc readUntil input, fun h => absurd rfl h⟩
  · cases hc : c.isConnected with
    | false => exact Or.inl (by rw [readS_disconnected hkind hc])
    | true => exact Or.inr ⟨readS_connected hc hasCrc readUntil input, fun _ => rfl⟩

theorem writeS_transfer (kind : Kind) (c : Client) (accept : List Byte → Int) (buffer : Mem) (size : SizeT) (addCrc : Bool) :
    Transfer kind c (kind.writeS accept buffer size addCrc c) := by
  have hclient : (kind.writeS accept buffer size addCrc c).client = c := writeS_members accept addCrc
  refine ⟨by simp [hclient], ?_⟩
  by_cases hkind : kind = .udp
  · subst hkind
    exact Or.inr ⟨writeS_udp accept addCrc, fun h => absurd rfl h⟩
  · cases hc : c.isConnected with
    | false => exact Or.inl (by rw [writeS_disconnected hkind hc])
    | true => exact Or.inr ⟨writeS_connected hc accept addCrc, fun _ => rfl⟩

/-- A transfer on a client that uses what it has open. -/
theorem transfer_apart {o : Outcome} {kind : Kind} (hs : Inv s) (ho : Transfer kind (s.client w) o)
    (hudp : kind = .udp → s.isOpen w = true) : Clean w s.table o.effects ∧ replay w s.table o.effects = some s.table := by
  rcases ho.2 with hnone | ⟨huses, hconnected⟩
  · rw [hnone]
    exact ⟨trivial, rfl⟩
  · have hopen : s.isOpen w = true := by
      by_cases hkind : kind = .udp
      · exact hudp hkind
      · exact hs.connected w (hconnected hkind)
    exact ⟨onlyUses_clean huses (not_other (hs.mine w hopen)), onlyUses_replay huses⟩

theorem careful_apart {a : Who × Op} (hs : Inv s) (ha : Careful kind s a) : Apart strerror kind s a := by
  obtain ⟨w, op⟩ := a
  cases op with
  | openConnection k address opt flags =>
    exact (openConnection_opens strerror (kind w) k address opt flags (s.client w)).clean w s.table
  | fromSocket fd => trivial
  | closeConnection n => exact ⟨not_other (hs.mine w ha), trivial⟩
  | readS buffer size hasCrc readUntil input =>
    exact (transfer_apart hs (readS_transfer (kind w) (s.client w) buffer size hasCrc readUntil input) ha).1
  | writeS accept buffer size addCrc =>
    exact (transfer_apart hs (writeS_transfer (kind w) (s.client w) accept buffer size addCrc) ha).1

/-- What a call on `w` does to the state; `mine` and `connected` are to be shown for `w`
    alone. -/
theorem inv_of_call {o : Outcome} {isOpen : Bool} (hs : Inv s) (hclean : Clean w s.table o.effects)
    (hreplay : replay w s.table o.effects = some table')
    (hmine : isOpen = true → table' o.client.fd = some (.client w))
    (hconnected : o.client.isConnected = true → isOpen = true) :
    Inv ⟨Function.update s.client w o.client, Function.update s.isOpen w isOpen, table'⟩ := by
  refine ⟨?_, ?_⟩
  · intro w'
    by_cases hw : w' = w
    · subst hw
      simpa only [Function.update_self] using hmine
    · simp only [Function.update_of_ne hw]
      intro hopen
      have hother : w' = w.other := by
        cases w <;> cases w' <;> first | rfl | exact absurd rfl hw
      have hmine' := hs.mine w' hopen
      rw [hother] at hmine' ⊢
      exact replay_keeps hclean hreplay hmine'
  · intro w'
    by_cases hw : w' = w
    · subst hw
      simpa only [Function.update_self] using hconnected
    · simp only [Function.update_of_ne hw]
      exact hs.connected w'

/-- A transfer leaves the client and the table as they were. -/
theorem inv_of_transfer {o : Outcome} {kind : Kind} (hs : Inv s) (ho : Transfer kind (s.client w) o)
    (hudp : kind = .udp → s.isOpen w = true) (hreplay : replay w s.table o.effects = some table') :
    Inv ⟨Function.update s.client w o.client, Function.update s.isOpen w (s.isOpen w), table'⟩ := by
  obtain ⟨hclean, hkeep⟩ := transfer_apart hs ho hudp
  have hsame : table' = s.table := Option.some.inj (hreplay.symm.trans hkeep)
  refine inv_of_call hs hclean hreplay ?_ ?_
  · intro hopen
    rw [hsame]
    exact ho.1.1 ▸ hs.mine w hopen
  · intro hconnected
    exact hs.connected w (ho.1.2 ▸ hconnected)

theorem step_call {a : Who × Op} (h : step strerror kind s a = some t) :
    taken a.2 (perform strerror (kind a.1) (s.client a.1) a.2).ended = true ∧
      ∃ table, replay a.1 s.table (perform strerror (kind a.1) (s.client a.1) a.2).effects = some table ∧
        t = ⟨Function.update s.client a.1 (perform strerror (kind a.1) (s.client a.1) a.2).client,
          Function.update s.isOpen a.1 (isOpenAfter (s.isOpen a.1) a.2), table⟩ := by
  simp only [step] at h
  obtain ⟨htaken, h⟩ := Option.ite_none_right_eq_some.mp h
  obtain ⟨table, htable, rfl⟩ := Option.map_eq_some_iff.mp h
  exact ⟨htaken, table, htable, rfl⟩

theorem step_inv {a : Who × Op} (hs : Inv s) (ha : Careful kind s a) (h : step strerror kind s a = some t) : Inv t := by
  have hclean : Apart strerror kind s a := careful_apart hs ha
  obtain ⟨htaken, table, hreplay, rfl⟩ := step_call h
  obtain ⟨w, op⟩ := a
  cases op with
  | openConnection k address opt flags =>
    simp only [perform] at htaken hreplay ⊢
    cases hended : ((kind w).openConnection strerror k address opt flags (s.client w)).ended with
    | returned n =>
      obtain ⟨pre, file, hlast⟩ :=
        (openConnection_opens strerror (kind w) k address opt flags (s.client w)).last n hended
      refine inv_of_call hs hclean hreplay ?_ (fun _ => rfl)
      intro _
      rw [hlast] at hreplay
      exact replay_append_opened hreplay
    | threw thrown => simp [taken, hended] at htaken
    | blocked => simp [taken, hended] at htaken
    | undefined => simp [taken, hended] at htaken
  | fromSocket fd => cases htaken
  | closeConnection n => exact inv_of_call hs hclean hreplay nofun nofun
  | readS buffer size hasCrc readUntil input =>
    exact inv_of_transfer hs (readS_transfer (kind w) (s.client w) buffer size hasCrc readUntil input) ha hreplay
  | writeS accept buffer size addCrc =>
    exact inv_of_transfer hs (writeS_transfer (kind w) (s.client w) accept buffer size addCrc) ha hreplay

theorem new_inv (h : New s) : Inv s := by
  refine ⟨?_, ?_⟩
  · intro w hopen
    rw [h.closed w] at hopen
    cases hopen
  · intro w hconnected
    rw [h.unconnected w] at hconnected
    cases hconnected

/-- For two new clients of any kinds, any table and any interleaving of calls on them: if a
    client is closed, and a UDP client used, only while it is open, then no call on one
    closes, reads or writes a descriptor that the other one has open. -/
theorem apart_of_careful (strerror : Errno → String) (kind : Who → Kind) {s : St} (hnew : New s)
    {as : List (Who × Op)} (h : Meets (step strerror kind) (Careful kind) s as) :
    Meets (step strerror kind) (Apart strerror kind) s as := by
  refine meets_of_invariant (I := Inv) ?_ ?_ (new_inv hnew) h
  · intro s a t hs ha hstep
    exact step_inv hs ha hstep
  · intro s a hs ha
    exact careful_apart hs ha

/-! ## Two clients that meet -/

/-- Descriptors 0, 1 and 2 are the standard streams. -/
def standard : Table := fun fd => if 0 ≤ fd ∧ fd < 3 then some .process else none

/-- Two clients that were never opened, with -1 in their `m_fd`. -/
def two : St := ⟨fun _ => ⟨-1, false, ⟨0, 0⟩⟩, fun _ => false, standard⟩

theorem new_two : New two := by
  refine ⟨fun _ => rfl, fun _ => rfl, ?_⟩
  intro fd w
  simp only [two, standard]
  by_cases h : 0 ≤ fd ∧ fd < 3
  · simp [h]
  · simp [h]

def opened (fd : Nat) : Op := .openConnection ⟨⟨some fd, fun _ => some 0x7f000001, fun _ => none, fun _ => none,
  fun _ => none, fun _ => none, some 0⟩, plugged fd⟩ "localhost" 5000 (-1)

def written : Op := .writeS (fun bytes => bytes.length) (memOf [1, 2, 3, 4]) (toSizeT 4) false

/-- `a` is opened, used and closed; `b` gets the same number. -/
def inTurn : List (Who × Op) :=
  [(.a, opened 3), (.a, written), (.a, .closeConnection 0), (.b, opened 3), (.b, written), (.b, .closeConnection 0)]

theorem apart_in_turn : Meets (step (fun _ => "") fun _ => .tcp) (Apart (fun _ => "") fun _ => .tcp) two inTurn := by
  refine apart_of_careful (fun _ => "") (fun _ => .tcp) new_two ?_
  decide +kernel

/-- A TCP client is closed a second time when the other one has its number, or a UDP client
    sends once more after it was closed. -/
theorem a_second_close_closes_the_other :
    (∃ t, run (step (fun _ => "") fun _ => .tcp) two [(.a, opened 3), (.a, .closeConnection 0), (.b, opened 3)] = some t ∧
      t.table 3 = some (.client .b) ∧ (perform (fun _ => "") .tcp (t.client .a) (.closeConnection 0)).effects = [.closed 3] ∧
      ¬ Apart (fun _ => "") (fun _ => .tcp) t (.a, .closeConnection 0)) ∧
    ∃ t, run (step (fun _ => "") fun _ => .udp) two [(.a, opened 3), (.a, .closeConnection 0), (.b, opened 3)] = some t ∧
      t.table 3 = some (.client .b) ∧ (perform (fun _ => "") .udp (t.client .a) written).effects = [.used 3] ∧
      ¬ Apart (fun _ => "") (fun _ => .udp) t (.a, written) := by
  refine ⟨⟨_, rfl, rfl, rfl, ?_⟩, ⟨_, rfl, rfl, rfl, ?_⟩⟩
  · intro h
    exact h.1 rfl
  · intro h
    exact h.1 rfl

end Descriptors

end ComClient.Client
