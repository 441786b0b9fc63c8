/-
  ComClient.Server.Fifo — the bytes between a client and its reader, over every
  interleaving of the handlers, the accept thread, `stop()` and the callers.

  - `fifo_untouched`: a step changes the FIFO of one socket at most.
  - `fifo_conserved`: with one consumer a socket and no `clear_fifo`, what a connected
    client sent is what was taken out of its FIFO followed by what is in it, and what the
    callback has seen apart from the chunk in the handler's hand; a read copies a prefix,
    and a blocking one exactly what it asked for.
-/

import ComClient.Server.Threads

namespace ComClient.Server.TCPServer

open ComClient.Transport (Byte)
open ComClient.Lts

variable {s t : TCPServer} {as : List Act} {i : Socket}

/-! ## Which FIFO a step may change -/

def touches (s : TCPServer) : Act → Option Socket
  | .accept .go =>
    match s.accept with
    | .setFifo fd => some fd
    | _ => none
  | .handler tid .go =>
    match s.handlers tid with
    | some ⟨fd, .eraseFifo⟩ => some fd
    | _ => none
  | .handler tid (.data _) => (s.handlers tid).map (·.fd)
  | .user u .go =>
    match s.users u with
    | .copy c _ => if c.erase then some c.i else none
    | _ => none
  | .user _ (.clear i) => some i
  | _ => none

theorem fifo_untouched {a : Act} {j : Socket} (hs : s.step a = some t) (hj : s.touches a ≠ some j) :
    t.reg.fifo j = s.reg.fifo j := by
  obtain ⟨-, hs⟩ := step_cases hs
  cases a with
  | accept a =>
    cases hs
    case setFifo fd hpc =>
      have hne : j ≠ fd := by
        rintro rfl
        exact hj (by simp [touches, hpc])
      simp only [Registry.fifo_setFifo, if_neg hne]
    all_goals rfl
  | handler tid a =>
    cases hs
    case eraseFifo fd hh =>
      have hne : j ≠ fd := by
        rintro rfl
        exact hj (by simp [touches, hh])
      simp only [setHandler, Registry.fifo_eraseFifo, if_neg hne]
    case data fd n c hh hc _ _ _ =>
      have hne : j ≠ fd := by
        rintro rfl
        exact hj (by simp [touches, hh])
      simp only [setHandler, log, Registry.fifo_append, if_neg hne]
    all_goals rfl
  | stop a => cases hs <;> rfl
  | user u a =>
    cases hs
    case clear i hu =>
      have hne : j ≠ i := by
        rintro rfl
        exact hj rfl
      simp only [Registry.fifo_clearFifo, if_neg hne]
    case copy c n reg bytes hu hc =>
      obtain ⟨-, -, hfifo⟩ := Registry.copy_eq_some _ _ _ hc
      have hne : ¬ (j = c.i ∧ c.erase = true) := by
        rintro ⟨rfl, he⟩
        exact hj (by simp [touches, hu, he])
      exact (hfifo j).trans (if_neg hne)
    case sample => exact Registry.fifo_sample _ _ _
    case wait => exact Registry.fifo_sample _ _ _
    case clamp c hu => exact Registry.fifo_clamp _ _ _ c.size
    case sampled => exact Registry.fifo_sample _ _ _
    all_goals rfl
  | world a => cases hs <;> rfl

/-! ## What was seen of a socket -/

/-- The bytes that `recv` returned for the client. -/
def received (i : Socket) (h : List Event) : List Byte :=
  h.flatMap fun
    | .received j bytes => if j = i then bytes else []
    | _ => []

/-- The bytes that the erasing reads returned. -/
def taken (i : Socket) (h : List Event) : List Byte :=
  h.flatMap fun
    | .read c bytes => if c.i = i ∧ c.erase = true then bytes else []
    | _ => []

/-- The bytes that `m_callback` was called with. -/
def called (i : Socket) (h : List Event) : List Byte :=
  h.flatMap fun
    | .called j bytes => if j = i then bytes else []
    | _ => []

/-- The chunk that the handler has received and not yet passed to the callback. -/
def inHand : HandlerPc → List Byte
  | .callback chunk => chunk
  | _ => []

/-- The handler is inside its loop. -/
def serving : HandlerPc → Bool
  | .check => true
  | .recv => true
  | .callback _ => true
  | _ => false

theorem holding_of_serving {pc : HandlerPc} (h : serving pc = true) : holding pc = true := by
  cases pc <;> first | rfl | cases h

/-- No handler of the socket has left its loop. -/
def StaysConnected (s : TCPServer) (i : Socket) : Prop :=
  ∀ tid pc, s.handlers tid = some ⟨i, pc⟩ → serving pc = true

structure Conserved (i : Socket) (s : TCPServer) : Prop where
  held : received i s.history = taken i s.history ++ s.reg.fifo i
  seen : ∀ tid pc, s.handlers tid = some ⟨i, pc⟩ → received i s.history = called i s.history ++ inHand pc
  fresh : (∀ tid pc, s.handlers tid ≠ some ⟨i, pc⟩) → received i s.history = [] ∧ called i s.history = []

theorem received_append (h es : List Event) : received i (h ++ es) = received i h ++ received i es :=
  List.flatMap_append

theorem taken_append (h es : List Event) : taken i (h ++ es) = taken i h ++ taken i es := List.flatMap_append

theorem called_append (h es : List Event) : called i (h ++ es) = called i h ++ called i es := List.flatMap_append

/-- What the three see is unchanged. -/
def SameSeen (i : Socket) (h h' : List Event) : Prop :=
  received i h' = received i h ∧ taken i h' = taken i h ∧ called i h' = called i h

theorem sameSeen_append {h es : List Event} (hr : received i es = []) (ht : taken i es = []) (hc : called i es = []) :
    SameSeen i h (h ++ es) := by
  refine ⟨?_, ?_, ?_⟩
  · rw [received_append, hr, List.append_nil]
  · rw [taken_append, ht, List.append_nil]
  · rw [called_append, hc, List.append_nil]

theorem conserved_frame (h : Conserved i s) (hh : t.handlers = s.handlers) (hf : t.reg.fifo i = s.reg.fifo i)
    (hseen : SameSeen i s.history t.history) : Conserved i t := by
  obtain ⟨hr, ht, hc⟩ := hseen
  refine ⟨?_, ?_, ?_⟩
  · rw [hr, ht, hf]
    exact h.held
  · intro tid pc hpc
    rw [hr, hc]
    exact h.seen tid pc (hh ▸ hpc)
  · intro hnone
    rw [hr, hc]
    exact h.fresh (hh ▸ hnone)

/-- Until its handler is started, nothing has happened on the socket. -/
theorem no_handler_of_unstarted (ho : Owned s) (hi : StaysConnected s i) (hun : unstarted s.accept = some i) (tid : Tid)
    (pc : HandlerPc) : s.handlers tid ≠ some ⟨i, pc⟩ := by
  intro hpc
  exact (ho.accepting i hun).2 tid ⟨pc, hpc, holding_of_serving (hi tid pc hpc)⟩

theorem conserved_acceptStep {a : AcceptAct} (h : Conserved i s) (ho : Owned s) (hi : StaysConnected s i)
    (hs : AcceptStep s a t) : Conserved i t := by
  cases hs with
  | setFifo fd hpc =>
    refine conserved_frame h rfl ?_ ⟨rfl, rfl, rfl⟩
    by_cases e : i = fd
    · subst e
      have hnone := no_handler_of_unstarted ho hi (by rw [hpc]; rfl)
      have hfifo := h.held
      rw [(h.fresh hnone).1] at hfifo
      rw [Registry.fifo_setFifo, if_pos rfl]
      exact (List.append_eq_nil_iff.mp hfifo.symm).2.symm
    · rw [Registry.fifo_setFifo, if_neg e]
  | startThread fd hpc =>
    refine ⟨h.held, fun tid pc hh => ?_, fun hnone => h.fresh fun tid pc hh => ?_⟩
    · rcases upd_eq_some.mp hh with ⟨-, hnew⟩ | ⟨-, hh⟩
      · cases hnew
        obtain ⟨hr, hc⟩ := h.fresh (no_handler_of_unstarted ho hi (by rw [hpc]; rfl))
        exact hr.trans (congrArg (· ++ []) hc.symm)
      · exact h.seen tid pc hh
    · exact hnone tid pc (upd_eq_some.mpr (Or.inr ⟨ho.ne_next hh, hh⟩))
  | notify fd hpc =>
    refine conserved_frame h rfl rfl (sameSeen_append ?_ ?_ ?_)
    all_goals split <;> rfl
  | check hpc => exact conserved_frame h rfl rfl ⟨rfl, rfl, rfl⟩
  | insertClient fd hpc => exact conserved_frame h rfl rfl ⟨rfl, rfl, rfl⟩
  | makeMutex fd hpc => exact conserved_frame h rfl rfl ⟨rfl, rfl, rfl⟩
  | assign fd tid hpc hnone => exact conserved_frame h rfl rfl ⟨rfl, rfl, rfl⟩
  | terminate fd tid old hpc hold => exact conserved_frame h rfl rfl ⟨rfl, rfl, rfl⟩
  | connection fd hpc hfree => exact conserved_frame h rfl rfl ⟨rfl, rfl, rfl⟩
  | error e hpc => exact conserved_frame h rfl rfl ⟨rfl, rfl, rfl⟩

/-- A handler's step when it is another socket's. -/
theorem conserved_other {tid : Tid} {fd : Socket} {pc pc' : HandlerPc} (h : Conserved i s) (hne : fd ≠ i)
    (hpc : s.handlers tid = some ⟨fd, pc⟩) (hup : t.handlers = upd s.handlers tid (some ⟨fd, pc'⟩))
    (hf : t.reg.fifo i = s.reg.fifo i) (hseen : SameSeen i s.history t.history) : Conserved i t := by
  obtain ⟨hr, ht, hc⟩ := hseen
  have hiff : ∀ g pc, t.handlers g = some ⟨i, pc⟩ ↔ s.handlers g = some ⟨i, pc⟩ := by
    intro g p
    rw [hup, upd_eq_some]
    by_cases e : g = tid
    · subst e
      simp [hpc, hne]
    · simp [e]
  refine ⟨?_, ?_, ?_⟩
  · rw [hr, ht, hf]
    exact h.held
  · intro g p hg
    rw [hr, hc]
    exact h.seen g p ((hiff g p).mp hg)
  · intro hnone
    rw [hr, hc]
    exact h.fresh fun g p hg => hnone g p ((hiff g p).mpr hg)

/-- A handler's step when it is the socket's own: there is no other handler of it. -/
theorem conserved_own {tid : Tid} {pc pc' : HandlerPc} (ho : Owned s) (hi : StaysConnected s i)
    (hpc : s.handlers tid = some ⟨i, pc⟩) (hup : t.handlers = upd s.handlers tid (some ⟨i, pc'⟩))
    (hf : received i t.history = taken i t.history ++ t.reg.fifo i)
    (hc : received i t.history = called i t.history ++ inHand pc') : Conserved i t := by
  have howns : ∀ g p, s.handlers g = some ⟨i, p⟩ → s.Owns g i := by
    intro g p hg
    exact ⟨p, hg, holding_of_serving (hi g p hg)⟩
  refine ⟨hf, ?_, ?_⟩
  · intro g p hg
    rw [hup] at hg
    rcases upd_eq_some.mp hg with ⟨-, hmoved⟩ | ⟨hne, hg⟩
    · cases hmoved
      exact hc
    · exact absurd (ho.unique g tid i (howns g p hg) (howns tid pc hpc)) hne
  · intro hnone
    refine absurd ?_ (hnone tid pc')
    rw [hup, upd_same]

/-- A step of a handler of another socket changes nothing that is seen of this one. -/
theorem HandlerStep.other {tid : Tid} {a : HandlerAct} {fd : Socket} {pc : HandlerPc} (hs : HandlerStep s tid a t)
    (hpc : s.handlers tid = some ⟨fd, pc⟩) (hne : fd ≠ i) :
    t.reg.fifo i = s.reg.fifo i ∧ SameSeen i s.history t.history := by
  have hsame : ∀ {g : Socket} {p : HandlerPc}, s.handlers tid = some ⟨g, p⟩ → g ≠ i := by
    intro g p hg
    rw [hpc] at hg
    cases hg
    exact hne
  cases hs with
  | callback g chunk hh =>
    refine ⟨rfl, sameSeen_append ?_ ?_ ?_⟩
    · split <;> rfl
    · split <;> rfl
    · split
      · simp [called, hsame hh]
      · rfl
  | eraseFifo g hh => exact ⟨(Registry.fifo_eraseFifo _ _ _).trans (if_neg (Ne.symm (hsame hh))), rfl, rfl, rfl⟩
  | data g n c hh hc h0 hn hlen =>
    refine ⟨(Registry.fifo_append _ _ _ _).trans (if_neg (Ne.symm (hsame hh))), sameSeen_append ?_ rfl rfl⟩
    simp [received, hsame hh]
  | check g hh => exact ⟨rfl, rfl, rfl, rfl⟩
  | close g hh => exact ⟨rfl, rfl, rfl, rfl⟩
  | eraseClient g hh => exact ⟨rfl, rfl, rfl, rfl⟩
  | eraseMutex g hh => exact ⟨rfl, rfl, rfl, rfl⟩
  | closed g hh hc => exact ⟨rfl, rfl, rfl, rfl⟩
  | failed g e hh hc => exact ⟨rfl, rfl, rfl, rfl⟩

theorem conserved_handlerStep {tid : Tid} {a : HandlerAct} (h : Conserved i s) (ho : Owned s) (hi : StaysConnected s i)
    (hcb : s.hasCallback = true) (hs : HandlerStep s tid a t) : Conserved i t := by
  obtain ⟨fd, pc, pc', hpc, -, hup⟩ := HandlerStep.move hs
  by_cases hfd : fd = i
  swap
  · obtain ⟨hf, hseen⟩ := HandlerStep.other hs hpc hfd
    exact conserved_other h hfd hpc hup hf hseen
  subst hfd
  have hserving := hi tid pc hpc
  cases hs with
  | check g hh =>
    cases hpc.symm.trans hh
    refine conserved_own ho hi hh rfl h.held ((h.seen tid _ hh).trans ?_)
    split <;> rfl
  | callback g chunk hh =>
    cases hpc.symm.trans hh
    refine conserved_own ho hi hh rfl ?_ ?_
    · show received fd (s.history ++ _) = taken fd (s.history ++ _) ++ s.reg.fifo fd
      rw [hcb, received_append, taken_append, h.held]
      simp [received, taken]
    · show received fd (s.history ++ _) = called fd (s.history ++ _) ++ []
      rw [hcb, received_append, called_append, h.seen tid _ hh]
      simp [received, called, inHand]
  | data g n c hh hc h0 hn hlen =>
    cases hpc.symm.trans hh
    refine conserved_own ho hi hh rfl ?_ ?_
    · show received fd (s.history ++ _) = taken fd (s.history ++ _) ++ (s.reg.append fd _).fifo fd
      rw [received_append, taken_append, Registry.fifo_append, if_pos rfl, h.held]
      simp [received, taken]
    · show received fd (s.history ++ _) = called fd (s.history ++ _) ++ _
      rw [received_append, called_append, h.seen tid _ hh]
      simp [received, called, inHand]
  | closed g hh hc =>
    cases hpc.symm.trans hh
    exact conserved_own ho hi hh rfl h.held ((h.seen tid _ hh).trans rfl)
  | failed g e hh hc =>
    cases hpc.symm.trans hh
    refine conserved_own ho hi hh rfl h.held ((h.seen tid _ hh).trans ?_)
    split <;> rfl
  | close g hh =>
    cases hpc.symm.trans hh
    cases hserving
  | eraseClient g hh =>
    cases hpc.symm.trans hh
    cases hserving
  | eraseFifo g hh =>
    cases hpc.symm.trans hh
    cases hserving
  | eraseMutex g hh =>
    cases hpc.symm.trans hh
    cases hserving

/-! ## One consumer a socket -/

/-- Socket `i` is read and asked for by the thread `consumer i` alone, and never cleared. -/
def OneConsumer (consumer : Socket → Tid) : Act → Prop
  | .user u (.read c) => u = consumer c.i
  | .user u (.available i) => u = consumer i
  | .user _ (.clear _) => False
  | _ => True

theorem conserved_userStep {consumer : Socket → Tid} {u : Tid} {a : UserAct} (h : Conserved i s)
    (ha : OneConsumer consumer (.user u a)) (hs : UserStep s u a t) : Conserved i t := by
  cases hs with
  | clear j hu => cases ha
  | copy c n reg bytes hu hc =>
    obtain ⟨hn, hbytes, hfifo⟩ := Registry.copy_eq_some _ _ _ hc
    refine ⟨?_, ?_, ?_⟩
    · show received i (s.history ++ _) = taken i (s.history ++ _) ++ reg.fifo i
      rw [received_append, taken_append, h.held, hfifo i]
      by_cases e : i = c.i ∧ c.erase = true
      · obtain ⟨rfl, he⟩ := e
        simp [received, taken, he, hbytes]
      · have e' : ¬ (c.i = i ∧ c.erase = true) := fun h => e ⟨h.1.symm, h.2⟩
        simp only [received, taken, List.flatMap_singleton, if_neg e, if_neg e', List.append_nil]
    · intro tid pc hh
      show received i (s.history ++ _) = called i (s.history ++ _) ++ inHand pc
      rw [received_append, called_append]
      simpa [received, called] using h.seen tid pc hh
    · intro hnone
      show received i (s.history ++ _) = [] ∧ called i (s.history ++ _) = []
      rw [received_append, called_append]
      simpa [received, called] using h.fresh hnone
  | read c hu hc => exact conserved_frame h rfl rfl ⟨rfl, rfl, rfl⟩
  | readRefused c hu => exact conserved_frame h rfl rfl (sameSeen_append rfl rfl rfl)
  | available j hu hc => exact conserved_frame h rfl rfl ⟨rfl, rfl, rfl⟩
  | availableRefused j hu => exact conserved_frame h rfl rfl (sameSeen_append rfl rfl rfl)
  | sample c hu => exact conserved_frame h rfl (Registry.fifo_sample _ _ _) ⟨rfl, rfl, rfl⟩
  | wait c hu => exact conserved_frame h rfl (Registry.fifo_sample _ _ _) ⟨rfl, rfl, rfl⟩
  | clamp c hu => exact conserved_frame h rfl (Registry.fifo_clamp _ _ _ c.size) ⟨rfl, rfl, rfl⟩
  | outOfBounds c n hu hc => exact conserved_frame h rfl rfl ⟨rfl, rfl, rfl⟩
  | sampled j hu => exact conserved_frame h rfl (Registry.fifo_sample _ _ _) (sameSeen_append rfl rfl rfl)

theorem HandlerGoes.serving {pc pc' : HandlerPc} (h : HandlerGoes pc pc') (hpc : serving pc' = true) :
    serving pc = true := by
  cases h <;> first | rfl | cases hpc

/-- A socket that is connected was connected all along. -/
theorem staysConnected_of_step {a : Act} (ho : Owned s) (hs : s.step a = some t) (hi : StaysConnected t i) :
    StaysConnected s i := by
  intro tid pc hpc
  obtain ⟨-, hs⟩ := step_cases hs
  cases a with
  | accept a =>
    cases hs
    case startThread fd hacc =>
      exact hi tid pc (upd_eq_some.mpr (Or.inr ⟨ho.ne_next hpc, hpc⟩))
    all_goals exact hi tid pc hpc
  | handler g a =>
    obtain ⟨fd, p, p', hp, hgoes, hup⟩ := HandlerStep.move hs
    by_cases e : tid = g
    · subst e
      rw [hpc] at hp
      cases hp
      have hp' : t.handlers tid = some ⟨i, p'⟩ := by rw [hup, upd_same]
      exact hgoes.serving (hi tid p' hp')
    · refine hi tid pc ?_
      rw [hup, upd_ne _ _ e]
      exact hpc
  | stop a => exact hi tid pc (StopStep.handlers hs ▸ hpc)
  | user u a => exact hi tid pc (UserStep.handlers hs ▸ hpc)
  | world a => exact hi tid pc (WorldStep.handlers hs ▸ hpc)

theorem conserved_step {consumer : Socket → Tid} {a : Act} (h : Conserved i s) (ho : Owned s)
    (hi : StaysConnected s i) (hcb : s.hasCallback = true) (ha : OneConsumer consumer a) (hs : s.step a = some t) :
    Conserved i t := by
  obtain ⟨-, hs⟩ := step_cases hs
  cases a with
  | accept a => exact conserved_acceptStep h ho hi hs
  | handler tid a => exact conserved_handlerStep h ho hi hcb hs
  | stop a => cases hs <;> exact conserved_frame h rfl rfl ⟨rfl, rfl, rfl⟩
  | user u a => exact conserved_userStep h ha hs
  | world a => cases hs <;> exact conserved_frame h rfl rfl ⟨rfl, rfl, rfl⟩

/-! ### What a reader has learnt -/

/-- The socket of a call. -/
def socketOf : UserPc → Option Socket
  | .sample c => some c.i
  | .wait c => some c.i
  | .clamp c => some c.i
  | .copy c _ => some c.i
  | .available i => some i
  | .idle => none

/-- What has been established when a call stands at `pc` with `len` bytes in its FIFO. -/
def learnt (len : Nat) : UserPc → Prop
  | .clamp c => c.blocking = true → c.size ≤ len
  | .copy c n => n ≤ len ∧ (c.blocking = true → n = c.size)
  | _ => True

structure Readers (consumer : Socket → Tid) (i : Socket) (s : TCPServer) : Prop where
  own : ∀ u, socketOf (s.users u) = some i → u = consumer i
  learnt : ∀ u, socketOf (s.users u) = some i → learnt (s.reg.fifo i).length (s.users u)

theorem learnt_mono {len len' : Nat} (hle : len ≤ len') {pc : UserPc} (h : learnt len pc) : learnt len' pc := by
  cases pc with
  | clamp c => exact fun hb => Nat.le_trans (h hb) hle
  | copy c n => exact ⟨Nat.le_trans h.1 hle, h.2⟩
  | _ => trivial

/-- Only its readers make the FIFO of a connected socket shorter. -/
theorem fifo_grows {a : Act} (h : Conserved i s) (ho : Owned s) (hi : StaysConnected s i)
    (ha : ∀ u b, a ≠ .user u b) (hs : s.step a = some t) : (s.reg.fifo i).length ≤ (t.reg.fifo i).length := by
  by_cases htouch : s.touches a = some i
  swap
  · rw [fifo_untouched hs htouch]
  obtain ⟨-, hs⟩ := step_cases hs
  cases a with
  | accept a =>
    cases hs
    case setFifo fd hpc =>
      simp only [touches, hpc, Option.some.injEq] at htouch
      subst htouch
      have hnone := no_handler_of_unstarted ho hi (by rw [hpc]; rfl)
      have hheld := h.held
      rw [(h.fresh hnone).1] at hheld
      rw [(List.append_eq_nil_iff.mp hheld.symm).2]
      exact Nat.zero_le _
    all_goals exact Nat.le_refl _
  | handler tid a =>
    cases hs
    case eraseFifo fd hh =>
      simp only [touches, hh, Option.some.injEq] at htouch
      subst htouch
      cases hi tid _ hh
    case data fd n c hh hc h0 hn hlen =>
      show _ ≤ ((s.reg.append fd _).fifo i).length
      rw [Registry.fifo_append]
      split
      · rename_i e
        rw [List.length_append, e]
        exact Nat.le_add_right _ _
      · exact Nat.le_refl _
    all_goals exact Nat.le_refl _
  | stop a => cases htouch
  | user u a => exact absurd rfl (ha u a)
  | world a => cases htouch

theorem readers_frame {consumer : Socket → Tid} (h : Readers consumer i s) (hu : t.users = s.users)
    (hlen : (s.reg.fifo i).length ≤ (t.reg.fifo i).length) : Readers consumer i t where
  own u hs := h.own u (hu ▸ hs)
  learnt u hs := by
    rw [hu] at hs ⊢
    exact learnt_mono hlen (h.learnt u hs)

/-- A call moves on; the other calls lose nothing. -/
theorem readers_move {consumer : Socket → Tid} (h : Readers consumer i s) {u : Tid} {pc : UserPc}
    (hu : t.users = upd s.users u pc) (hown : socketOf pc = some i → u = consumer i)
    (hlearnt : socketOf pc = some i → learnt (t.reg.fifo i).length pc)
    (hfifo : u ≠ consumer i → t.reg.fifo i = s.reg.fifo i) : Readers consumer i t := by
  constructor
  · intro v hv
    rw [hu] at hv
    by_cases e : v = u
    · subst e
      rw [upd_same] at hv
      exact hown hv
    · rw [upd_ne _ _ e] at hv
      exact h.own v hv
  · intro v hv
    rw [hu] at hv ⊢
    by_cases e : v = u
    · subst e
      rw [upd_same] at hv ⊢
      exact hlearnt hv
    · rw [upd_ne _ _ e] at hv ⊢
      have hne : u ≠ consumer i := fun hc => e ((h.own v hv).trans hc.symm)
      rw [hfifo hne]
      exact h.learnt v hv

/-- A section that samples the FIFO: the call goes on waiting, or has found enough. -/
theorem readers_sampled {consumer : Socket → Tid} {u : Tid} {c : ReadCall} {p : Prop} [Decidable p]
    (h : Readers consumer i s) (hu : socketOf (s.users u) = some c.i)
    (hgo : ¬ p → c.blocking = true → c.size ≤ (s.reg.fifo c.i).length) :
    Readers consumer i ({ s with reg := (s.reg.sample c.i).1 }.setUser u (if p then .wait c else .clamp c)) := by
  have hfifo : (s.reg.sample c.i).1.fifo i = s.reg.fifo i := Registry.fifo_sample _ _ _
  refine readers_move h rfl ?_ ?_ (fun _ => hfifo)
  · intro he
    refine h.own u (hu.trans ?_)
    split at he <;> exact he
  · intro he
    show learnt ((s.reg.sample c.i).1.fifo i).length _
    rw [hfifo]
    by_cases hp : p
    · rw [if_pos hp]
      trivial
    · rw [if_neg hp] at he ⊢
      cases he
      exact hgo hp

theorem readers_userStep {consumer : Socket → Tid} {u : Tid} {a : UserAct} (h : Readers consumer i s)
    (ha : OneConsumer consumer (.user u a)) (hs : UserStep s u a t) : Readers consumer i t := by
  cases hs with
  | read c hu hc =>
    refine readers_move h rfl ?_ (fun _ => trivial) (fun _ => rfl)
    intro he
    cases he
    exact ha
  | readRefused c hu => exact readers_frame h rfl (Nat.le_refl _)
  | available j hu hc =>
    refine readers_move h rfl ?_ (fun _ => trivial) (fun _ => rfl)
    intro he
    cases he
    exact ha
  | availableRefused j hu => exact readers_frame h rfl (Nat.le_refl _)
  | clear j hu => cases ha
  | outOfBounds c n hu hc => exact readers_frame h rfl (Nat.le_refl _)
  | sampled j hu => exact readers_move h rfl nofun nofun (fun _ => Registry.fifo_sample _ _ _)
  | sample c hu =>
    refine readers_sampled h (by rw [hu]; rfl) ?_
    intro hgo hb
    exact Nat.le_of_not_lt fun hlt => hgo ⟨hb, hlt⟩
  | wait c hu =>
    refine readers_sampled h (by rw [hu]; rfl) ?_
    intro hgo _
    exact Nat.le_of_not_lt hgo
  | clamp c hu =>
    have hfifo : (s.reg.clamp c.i c.size).1.fifo i = s.reg.fifo i := Registry.fifo_clamp _ _ _ c.size
    have hsocket : socketOf (s.users u) = some c.i := by rw [hu]; rfl
    refine readers_move h rfl (fun he => h.own u (hsocket.trans he)) ?_ (fun _ => hfifo)
    intro he
    show learnt ((s.reg.clamp c.i c.size).1.fifo i).length _
    rw [hfifo]
    cases he
    have hlearnt := h.learnt u (by rw [hu]; rfl)
    rw [hu] at hlearnt
    exact ⟨Nat.min_le_right _ _, fun hb => Nat.min_eq_left (hlearnt hb)⟩
  | copy c n reg bytes hu hc =>
    refine readers_move h rfl nofun nofun ?_
    intro hne
    obtain ⟨-, -, hfifo⟩ := Registry.copy_eq_some _ _ _ hc
    refine (hfifo i).trans (if_neg fun he => hne (h.own u ?_))
    rw [hu]
    exact congrArg some he.1.symm

/-! ### Over a run -/

structure Consumed (consumer : Socket → Tid) (s : TCPServer) : Prop where
  owned : Owned s
  callback : s.hasCallback = true
  conserved : ∀ i, StaysConnected s i → Conserved i s
  readers : ∀ i, StaysConnected s i → Readers consumer i s

theorem users_of_step {a : Act} (hs : s.step a = some t) (ha : ∀ u b, a ≠ .user u b) : t.users = s.users := by
  obtain ⟨-, hs⟩ := step_cases hs
  cases a with
  | accept a => cases hs <;> rfl
  | handler tid a => cases hs <;> rfl
  | stop a => cases hs <;> rfl
  | user u a => exact absurd rfl (ha u a)
  | world a => cases hs <;> rfl

theorem consumed_step {consumer : Socket → Tid} {a : Act} (h : Consumed consumer s) (ha : OneConsumer consumer a)
    (hs : s.step a = some t) : Consumed consumer t := by
  refine ⟨owned_step h.owned hs, (step_hasCallback hs).trans h.callback, ?_, ?_⟩
  · intro i hi
    have hi' := staysConnected_of_step h.owned hs hi
    exact conserved_step (h.conserved i hi') h.owned hi' h.callback ha hs
  · intro i hi
    have hi' := staysConnected_of_step h.owned hs hi
    rcases user_or_not a with ⟨u, b, rfl⟩ | huser
    · obtain ⟨-, hs⟩ := step_cases hs
      exact readers_userStep (h.readers i hi') ha hs
    · exact readers_frame (h.readers i hi') (users_of_step hs huser)
        (fifo_grows (h.conserved i hi') h.owned hi' huser hs)

theorem consumed_run {consumer : Socket → Tid} (h0 : Started s) (hcb : s.hasCallback = true)
    (hone : ∀ a ∈ as, OneConsumer consumer a) (hrun : run step s as = some t) : Consumed consumer t := by
  refine run_invariant_of_meets (fun _ _ _ => consumed_step) ?_ (meets_of_forall hone) hrun
  refine ⟨owned_started h0, hcb, fun i _ => ⟨?_, fun tid pc hh => ?_, fun _ => ?_⟩, fun i _ => ⟨?_, ?_⟩⟩
  · rw [h0.history, h0.fifos]
    rfl
  · rw [h0.handlers] at hh
    cases hh
  · rw [h0.history]
    exact ⟨rfl, rfl⟩
  · intro u hu
    rw [h0.users] at hu
    cases hu
  · intro u hu
    rw [h0.users] at hu
    cases hu

/-- The call `c` has copied: a prefix of the FIFO, all it asked for if it is a blocking one,
    and erased just that if it erases. -/
def Copied (c : ReadCall) (s t : TCPServer) : Prop :=
  ∃ bytes, t.history = s.history ++ [.read c bytes] ∧ bytes <+: s.reg.fifo c.i ∧
    (c.blocking = true → bytes.length = c.size) ∧
    t.reg.fifo c.i = if c.erase then (s.reg.fifo c.i).drop bytes.length else s.reg.fifo c.i

theorem copied_of_learnt {u : Tid} {c : ReadCall} {n : Nat} (hu : s.users u = .copy c n)
    (hn : learnt (s.reg.fifo c.i).length (.copy c n)) (hs : s.step (.user u .go) = some t) : Copied c s t := by
  have hcopy : s.reg.copy c.i n c.erase ≠ none := by simp [Registry.copy, hn.1]
  obtain ⟨-, hs⟩ := step_cases hs
  cases hs with
  | copy c' n' reg bytes hu' hc =>
    cases hu.symm.trans hu'
    obtain ⟨-, hbytes, hfifo⟩ := Registry.copy_eq_some _ _ _ hc
    have hlen : bytes.length = n := by
      rw [hbytes, List.length_take]
      exact Nat.min_eq_left hn.1
    refine ⟨bytes, rfl, hbytes ▸ List.take_prefix _ _, fun hb => hlen.trans (hn.2 hb), ?_⟩
    rw [hlen]
    show reg.fifo c.i = _
    rw [hfifo c.i]
    simp only [true_and]
  | outOfBounds c' n' hu' hc =>
    cases hu.symm.trans hu'
    exact absurd hc hcopy
  | sample c' hu' => cases hu.symm.trans hu'
  | wait c' hu' => cases hu.symm.trans hu'
  | clamp c' hu' => cases hu.symm.trans hu'
  | sampled j hu' => cases hu.symm.trans hu'

/-- With one consumer a socket, in every state a run reaches: what was received from a
    connected client is what the erasing reads took followed by its FIFO, and what the
    callback has seen followed by at most the chunk in its handler's hand; a call that
    copies gets a prefix of the FIFO, and all it asked for if it blocks; and no step changes
    the FIFO of another socket than its own. -/
theorem fifo_conserved {consumer : Socket → Tid} (h0 : Started s) (hcb : s.hasCallback = true)
    (hone : ∀ a ∈ as, OneConsumer consumer a) (hrun : run step s as = some t) :
    (∀ i, StaysConnected t i →
      received i t.history = taken i t.history ++ t.reg.fifo i ∧
      (∃ chunk, received i t.history = called i t.history ++ chunk ∧
        (chunk = [] ∨ ∃ tid, t.handlers tid = some ⟨i, .callback chunk⟩)) ∧
      ∀ u c n m, t.users u = .copy c n → c.i = i → t.step (.user u .go) = some m → Copied c t m) ∧
    ∀ a m j, t.step a = some m → t.touches a ≠ some j → m.reg.fifo j = t.reg.fifo j := by
  have h := consumed_run h0 hcb hone hrun
  refine ⟨fun i hi => ⟨(h.conserved i hi).held, ?_, fun u c n m hu he hs => ?_⟩, fun a m j => fifo_untouched⟩
  · by_cases hnone : ∀ tid pc, t.handlers tid ≠ some ⟨i, pc⟩
    · obtain ⟨hr, hc⟩ := (h.conserved i hi).fresh hnone
      exact ⟨[], hr.trans (congrArg (· ++ []) hc.symm), Or.inl rfl⟩
    · push Not at hnone
      obtain ⟨tid, pc, hpc⟩ := hnone
      refine ⟨inHand pc, (h.conserved i hi).seen tid pc hpc, ?_⟩
      cases pc with
      | callback chunk => exact Or.inr ⟨tid, hpc⟩
      | _ => exact Or.inl rfl
  · have hlearnt := (h.readers i hi).learnt u (by rw [hu]; exact congrArg some he)
    rw [hu, ← he] at hlearnt
    exact copied_of_learnt hu hlearnt hs

/-- A blocking read of two bytes while three arrive. -/
def aBlockingRead : List Act :=
  connect 4 ++ [.accept .go, .handler 0 .go, .user 0 (.read ⟨4, 2, true, true⟩), .user 0 .go, .world (.sends 4 [1, 2, 3]),
    .handler 0 (.data 3), .user 0 .go, .user 0 .go, .user 0 .go]

theorem fifo_conserved_for_a_blocking_read :
    ∃ t, run step started aBlockingRead = some t ∧ taken 4 t.history = [1, 2] ∧ t.reg.fifo 4 = [3] ∧
      (∀ i, StaysConnected t i →
        received i t.history = taken i t.history ++ t.reg.fifo i ∧
        (∃ chunk, received i t.history = called i t.history ++ chunk ∧
          (chunk = [] ∨ ∃ tid, t.handlers tid = some ⟨i, .callback chunk⟩)) ∧
        ∀ u c n m, t.users u = .copy c n → c.i = i → t.step (.user u .go) = some m → Copied c t m) ∧
      ∀ a m j, t.step a = some m → t.touches a ≠ some j → m.reg.fifo j = t.reg.fifo j := by
  have hrun : (run step started aBlockingRead).map (fun t => (taken 4 t.history, t.reg.fifo 4)) =
      some ([1, 2], [3]) := by decide +kernel
  obtain ⟨t, ht, heq⟩ := Option.map_eq_some_iff.mp hrun
  obtain ⟨htaken, hfifo⟩ := Prod.mk.inj heq
  have hone : ∀ a ∈ aBlockingRead, OneConsumer (fun _ => 0) a := by simp [aBlockingRead, connect, OneConsumer]
  exact ⟨t, ht, htaken, hfifo, fifo_conserved started_started rfl hone ht⟩

end ComClient.Server.TCPServer
