/-
  ComClient.Server.Threads — who owns a descriptor in a running `TCPServer`, and what
  `m_threads` and `stop()` know of the threads.

  - `owned_run`: the accept thread owns a connection until it has started the handler, the
    handler owns it until it closes it; two handlers never own the same descriptor, however
    often the kernel hands it out again.
  - `named_run`: every thread that `m_threads` or `stop()` names has been started, and the
    entries that `stop()` has yet to meet exist.
-/

import ComClient.Server.Steps

namespace ComClient.Server.TCPServer

open ComClient.Lts

variable {s t : TCPServer} {as : List Act}

/-! ## Owners -/

/-- The handler has not closed its socket. -/
def holding : HandlerPc → Bool
  | .check => true
  | .recv => true
  | .callback _ => true
  | .close => true
  | _ => false

/-- The connection whose handler has not been started. -/
def unstarted : AcceptPc → Option Socket
  | .insertClient fd => some fd
  | .setFifo fd => some fd
  | .makeMutex fd => some fd
  | .startThread fd => some fd
  | _ => none

def Owns (s : TCPServer) (tid : Tid) (fd : Socket) : Prop := ∃ pc, s.handlers tid = some ⟨fd, pc⟩ ∧ holding pc = true

structure Owned (s : TCPServer) : Prop where
  isOpen : ∀ tid fd, s.Owns tid fd → s.sockets fd ≠ none
  unique : ∀ tid tid' fd, s.Owns tid fd → s.Owns tid' fd → tid = tid'
  accepting : ∀ fd, unstarted s.accept = some fd → s.sockets fd ≠ none ∧ ∀ tid, ¬ s.Owns tid fd
  unused : ∀ tid, s.next ≤ tid → s.handlers tid = none

theorem owns_congr (h : t.handlers = s.handlers) {tid : Tid} {fd : Socket} : t.Owns tid fd ↔ s.Owns tid fd := by
  unfold Owns
  rw [h]

/-- The next name is not one of a handler that was started. -/
theorem Owned.ne_next (h : Owned s) {tid : Tid} {x : Handler} (hx : s.handlers tid = some x) : tid ≠ s.next := by
  rintro rfl
  rw [h.unused s.next (Nat.le_refl _)] at hx
  cases hx

/-- A step that starts and moves no handler, opens and closes no socket. -/
theorem owned_frame (h : Owned s) (hh : t.handlers = s.handlers) (hs : ∀ fd, s.sockets fd ≠ none → t.sockets fd ≠ none)
    (ha : ∀ fd, unstarted t.accept = some fd → unstarted s.accept = some fd) (hn : t.next = s.next) : Owned t where
  isOpen tid fd ho := hs fd (h.isOpen tid fd ((owns_congr hh).mp ho))
  unique tid tid' fd ho ho' := h.unique tid tid' fd ((owns_congr hh).mp ho) ((owns_congr hh).mp ho')
  accepting fd hfd := by
    obtain ⟨hopen, hnone⟩ := h.accepting fd (ha fd hfd)
    exact ⟨hs fd hopen, fun tid ho => hnone tid ((owns_congr hh).mp ho)⟩
  unused tid htid := by
    rw [hh]
    exact h.unused tid (hn ▸ htid)

theorem owns_startThread {fd g : Socket} {tid : Tid}
    (ho : (s.setHandler s.next ⟨fd, .check⟩).Owns tid g) : (tid = s.next ∧ g = fd) ∨ (tid ≠ s.next ∧ s.Owns tid g) := by
  obtain ⟨pc, hpc, hold⟩ := ho
  rcases upd_eq_some.mp hpc with ⟨htid, hh⟩ | ⟨htid, hpc⟩
  · cases hh
    exact Or.inl ⟨htid, rfl⟩
  · exact Or.inr ⟨htid, pc, hpc, hold⟩

theorem owned_acceptStep {a : AcceptAct} (h : Owned s) (hs : AcceptStep s a t) : Owned t := by
  cases hs with
  | check hpc =>
    refine owned_frame h rfl (fun _ h => h) ?_ rfl
    intro fd hfd
    dsimp only at hfd
    split at hfd <;> cases hfd
  | insertClient fd hpc => exact owned_frame h rfl (fun _ h => h) (fun g hg => by rw [hpc]; exact hg) rfl
  | setFifo fd hpc => exact owned_frame h rfl (fun _ h => h) (fun g hg => by rw [hpc]; exact hg) rfl
  | makeMutex fd hpc => exact owned_frame h rfl (fun _ h => h) (fun g hg => by rw [hpc]; exact hg) rfl
  | assign fd tid hpc hnone => exact owned_frame h rfl (fun _ h => h) (fun g hg => by cases hg) rfl
  | terminate fd tid old hpc hold => exact owned_frame h rfl (fun _ h => h) (fun g hg => hg) rfl
  | notify fd hpc => exact owned_frame h rfl (fun _ h => h) (fun g hg => by cases hg) rfl
  | error e hpc =>
    refine owned_frame h rfl (fun _ h => h) ?_ rfl
    intro fd hfd
    dsimp only at hfd
    split at hfd <;> cases hfd
  | startThread fd hpc =>
    obtain ⟨hopen, hnone⟩ := h.accepting fd (by rw [hpc]; rfl)
    refine ⟨?_, ?_, fun g hg => (by cases hg), ?_⟩
    · intro tid g ho
      rcases owns_startThread ho with ⟨-, rfl⟩ | ⟨-, ho⟩
      · exact hopen
      · exact h.isOpen tid g ho
    · intro tid tid' g ho ho'
      rcases owns_startThread ho with ⟨rfl, rfl⟩ | ⟨-, hown⟩
      · rcases owns_startThread ho' with ⟨rfl, -⟩ | ⟨-, hown'⟩
        · rfl
        · exact absurd hown' (hnone tid')
      · rcases owns_startThread ho' with ⟨rfl, rfl⟩ | ⟨-, hown'⟩
        · exact absurd hown (hnone tid)
        · exact h.unique tid tid' g hown hown'
    · intro tid htid
      have hlt : s.next < tid := htid
      simp only [setHandler, upd_ne _ _ (Nat.ne_of_gt hlt)]
      exact h.unused tid (Nat.le_of_lt hlt)
  | connection fd hpc hfree =>
    have hunowned : ∀ tid, ¬ s.Owns tid fd := fun tid ho => h.isOpen tid fd ho hfree.1.2
    refine ⟨fun tid g ho => upd_some_ne_none _ _ (h.isOpen tid g ho), h.unique, ?_, h.unused⟩
    intro g hg
    cases hg
    refine ⟨?_, hunowned⟩
    simp [setSocket]

theorem HandlerGoes.holding {pc pc' : HandlerPc} (h : HandlerGoes pc pc') (hold : holding pc' = true) :
    holding pc = true := by
  cases h <;> first | rfl | cases hold

theorem HandlerStep.owns {tid : Tid} {a : HandlerAct} (hs : HandlerStep s tid a t) {g : Tid} {fd : Socket}
    (ho : t.Owns g fd) : s.Owns g fd := by
  obtain ⟨pc, hpc, hold⟩ := ho
  obtain ⟨fd', p, p', hp, hgoes, hup⟩ := HandlerStep.move hs
  rw [hup] at hpc
  rcases upd_eq_some.mp hpc with ⟨rfl, hh⟩ | ⟨-, hpc⟩
  · cases hh
    exact ⟨p, hp, hgoes.holding hold⟩
  · exact ⟨pc, hpc, hold⟩

/-- A handler leaves the sockets of the others alone. -/
theorem HandlerStep.sockets_of_not_owns {tid : Tid} {a : HandlerAct} (hs : HandlerStep s tid a t) {fd : Socket}
    (h : ¬ s.Owns tid fd) : t.sockets fd = s.sockets fd := by
  cases hs
  case close g hh =>
    have hg : fd ≠ g := fun e => h (e ▸ ⟨_, hh, rfl⟩)
    exact upd_ne _ _ hg
  case data g n c hh hc _ _ _ =>
    have hg : fd ≠ g := fun e => h (e ▸ ⟨_, hh, rfl⟩)
    exact upd_ne _ _ hg
  all_goals rfl

/-- A handler closes only its own socket, and owns it no more. -/
theorem HandlerStep.sockets {tid : Tid} {a : HandlerAct} (hs : HandlerStep s tid a t) {fd : Socket}
    (h : s.sockets fd ≠ none) : t.sockets fd ≠ none ∨ (s.Owns tid fd ∧ ¬ t.Owns tid fd) := by
  cases hs
  case close g hh =>
    by_cases e : fd = g
    · subst e
      refine Or.inr ⟨⟨_, hh, rfl⟩, ?_⟩
      intro ho
      obtain ⟨pc, hpc, hold⟩ := ho
      simp only [setHandler, upd_same, Option.some.injEq, Handler.mk.injEq] at hpc
      rw [← hpc.2] at hold
      cases hold
    · left
      simp only [setHandler, setSocket, upd_ne _ _ e]
      exact h
  case data g n c hh hc _ _ _ =>
    exact Or.inl (upd_some_ne_none _ _ h)
  all_goals exact Or.inl h

theorem owned_handlerStep {tid : Tid} {a : HandlerAct} (h : Owned s) (hs : HandlerStep s tid a t) : Owned t := by
  have hsame := HandlerStep.same hs
  refine ⟨?_, ?_, ?_, ?_⟩
  · intro g fd ho
    have ho' := HandlerStep.owns hs ho
    rcases HandlerStep.sockets hs (h.isOpen g fd ho') with hopen | ⟨hown, hnot⟩
    · exact hopen
    · rw [h.unique g tid fd ho' hown] at ho
      exact absurd ho hnot
  · intro g g' fd ho ho'
    exact h.unique g g' fd (HandlerStep.owns hs ho) (HandlerStep.owns hs ho')
  · intro fd hfd
    obtain ⟨hopen, hnone⟩ := h.accepting fd (by rw [← hsame.accept]; exact hfd)
    refine ⟨?_, fun g ho => hnone g (HandlerStep.owns hs ho)⟩
    rcases HandlerStep.sockets hs hopen with hopen | ⟨hown, -⟩
    · exact hopen
    · exact absurd hown (hnone tid)
  · intro g hg
    obtain ⟨fd, pc, pc', hpc, -, hup⟩ := HandlerStep.move hs
    have hnone := h.unused g (hsame.next ▸ hg)
    rw [hup]
    by_cases e : g = tid
    · subst e
      rw [hnone] at hpc
      cases hpc
    · rw [upd_ne _ _ e]
      exact hnone

theorem WorldStep.sockets {a : WorldAct} (hs : WorldStep s a t) {fd : Socket} (h : s.sockets fd ≠ none) :
    t.sockets fd ≠ none := by
  cases hs
  case sends => exact upd_some_ne_none _ _ h
  case closes => exact upd_some_ne_none _ _ h
  case fails => exact upd_some_ne_none _ _ h
  case opens => exact h
  case shuts => exact h

theorem owned_step {a : Act} (h : Owned s) (hs : s.step a = some t) : Owned t := by
  obtain ⟨-, hs⟩ := step_cases hs
  cases a with
  | accept a => exact owned_acceptStep h hs
  | handler tid a => exact owned_handlerStep h hs
  | stop a =>
    refine owned_frame h (StopStep.handlers hs) ?_ ?_ (StopStep.next hs)
    · intro fd hfd
      rw [StopStep.sockets hs]; exact hfd
    · intro fd hfd
      rw [← StopStep.accept hs]; exact hfd
  | user u a =>
    have hsame := UserStep.same hs
    refine owned_frame h (UserStep.handlers hs) ?_ ?_ hsame.next
    · intro fd hfd
      rw [UserStep.sockets hs]; exact hfd
    · intro fd hfd
      rw [← hsame.accept]; exact hfd
  | world a =>
    have hsame := WorldStep.same hs
    refine owned_frame h (WorldStep.handlers hs) (fun _ => WorldStep.sockets hs) ?_ hsame.next
    intro fd hfd
    rw [← hsame.accept]; exact hfd

theorem owned_started (h0 : Started s) : Owned s := by
  have hnone : ∀ tid fd, ¬ s.Owns tid fd := by
    intro tid fd ho
    obtain ⟨pc, hpc, -⟩ := ho
    rw [h0.handlers] at hpc
    cases hpc
  refine ⟨fun tid fd ho => absurd ho (hnone tid fd), fun tid _ fd ho _ => absurd ho (hnone tid fd), fun fd hfd => ?_,
    fun tid _ => h0.handlers tid⟩
  rw [h0.accept] at hfd
  cases hfd

theorem owned_run (h0 : Started s) (hrun : run step s as = some t) : Owned t :=
  run_invariant (fun _ _ _ => owned_step) (owned_started h0) hrun

/-! ## The threads that have names -/

/-- The entries that the loop of `stop()` has yet to meet. -/
def todo : StopPc → List Socket
  | .loop todo => todo
  | .join _ _ todo => todo
  | _ => []

structure Named (s : TCPServer) : Prop where
  entries : ∀ fd tid, s.Joinable fd tid → s.handlers tid ≠ none
  assigning : ∀ fd tid, s.accept = .assign fd tid → s.handlers tid ≠ none
  joining : ∀ fd tid l, s.stop = .join fd tid l → s.handlers tid ≠ none
  todo : ∀ fd ∈ todo s.stop, fd ∈ s.threads

/-- A handler that was started stays started. -/
theorem step_handlers {a : Act} (hs : s.step a = some t) {tid : Tid} (h : s.handlers tid ≠ none) :
    t.handlers tid ≠ none := by
  obtain ⟨-, hs⟩ := step_cases hs
  cases a with
  | accept a =>
    cases hs
    case startThread => exact upd_some_ne_none _ _ h
    all_goals exact h
  | handler g a =>
    obtain ⟨fd, pc, pc', -, -, hup⟩ := HandlerStep.move hs
    rw [hup]
    exact upd_some_ne_none _ _ h
  | stop a => rw [StopStep.handlers hs]; exact h
  | user u a => rw [UserStep.handlers hs]; exact h
  | world a => rw [WorldStep.handlers hs]; exact h

theorem named_same (h : Named s) (hs : Same s t) (hh : ∀ tid, s.handlers tid ≠ none → t.handlers tid ≠ none) :
    Named t where
  entries fd tid hj := hh tid (h.entries fd tid ((joinable_congr hs.threads).mp hj))
  assigning fd tid ha := hh tid (h.assigning fd tid (hs.accept ▸ ha))
  joining fd tid l hj := hh tid (h.joining fd tid l (hs.stop ▸ hj))
  todo fd hfd := by
    rw [hs.threads]
    rw [hs.stop] at hfd
    exact h.todo fd hfd

theorem named_acceptStep {a : AcceptAct} (h : Named s) (hs : AcceptStep s a t)
    (hh : ∀ tid, s.handlers tid ≠ none → t.handlers tid ≠ none) : Named t := by
  cases hs with
  | startThread fd hpc =>
    refine ⟨?_, ?_, ?_, h.todo⟩
    · intro g tid hj
      exact hh tid (h.entries g tid hj)
    · intro g tid ha
      cases ha
      simp [setHandler]
    · intro g tid l hj
      exact hh tid (h.joining g tid l hj)
  | assign fd tid hpc hnone =>
    refine ⟨?_, fun g tid ha => (by cases ha), h.joining, ?_⟩
    · intro g old hj
      rcases (joinable_insert rfl).mp hj with ⟨-, htid⟩ | ⟨-, hj⟩
      · cases htid
        exact h.assigning fd tid hpc
      · exact h.entries g old hj
    · intro g hg
      exact (AList.mem_insert _).mpr (Or.inr (h.todo g hg))
  | terminate fd tid old hpc hold => exact ⟨h.entries, h.assigning, h.joining, h.todo⟩
  | check hpc =>
    refine ⟨h.entries, ?_, h.joining, h.todo⟩
    intro fd tid ha
    dsimp only at ha
    split at ha <;> cases ha
  | error e hpc =>
    refine ⟨h.entries, ?_, h.joining, h.todo⟩
    intro fd tid ha
    dsimp only at ha
    split at ha <;> cases ha
  | insertClient fd hpc => exact ⟨h.entries, fun fd tid ha => (by cases ha), h.joining, h.todo⟩
  | setFifo fd hpc => exact ⟨h.entries, fun fd tid ha => (by cases ha), h.joining, h.todo⟩
  | makeMutex fd hpc => exact ⟨h.entries, fun fd tid ha => (by cases ha), h.joining, h.todo⟩
  | notify fd hpc => exact ⟨h.entries, fun fd tid ha => (by cases ha), h.joining, h.todo⟩
  | connection fd hpc hfree => exact ⟨h.entries, fun fd tid ha => (by cases ha), h.joining, h.todo⟩

theorem named_stopStep {a : StopAct} (h : Named s) (hs : StopStep s a t) : Named t := by
  cases hs with
  | visit fd tid l hpc hj =>
    refine ⟨h.entries, h.assigning, ?_, ?_⟩
    · intro g tid' l' hpc'
      cases hpc'
      exact h.entries fd tid hj
    · intro g hg
      exact h.todo g (by rw [hpc]; exact List.mem_of_mem_erase hg)
  | skip fd l hpc hl =>
    refine ⟨h.entries, h.assigning, fun g tid' l' hpc' => (by cases hpc'), ?_⟩
    intro g hg
    exact h.todo g (by rw [hpc]; exact List.mem_of_mem_erase hg)
  | join fd tid l g hpc hdone =>
    refine ⟨?_, h.assigning, fun g tid' l' hpc' => (by cases hpc'), ?_⟩
    · intro g tid' hj
      rcases (joinable_insert rfl).mp hj with ⟨-, hnone⟩ | ⟨-, hj⟩
      · cases hnone
      · exact h.entries g tid' hj
    · intro g hg
      exact (AList.mem_insert _).mpr (Or.inr (h.todo g (by rw [hpc]; exact hg)))
  | begin hpc =>
    exact ⟨h.entries, h.assigning, fun g tid' l' hpc' => (by cases hpc'), fun g hg => AList.mem_keys.mpr hg⟩
  | check hpc =>
    refine ⟨h.entries, h.assigning, ?_, ?_⟩
    · intro g tid' l' hpc'
      dsimp only at hpc'
      split at hpc' <;> cases hpc'
    · intro g hg
      dsimp only at hg
      split at hg <;> cases hg
  | call hpc => exact ⟨h.entries, h.assigning, fun g tid' l' hpc' => (by cases hpc'), fun g hg => (by cases hg)⟩
  | clear hpc => exact ⟨h.entries, h.assigning, fun g tid' l' hpc' => (by cases hpc'), fun g hg => (by cases hg)⟩
  | joined hpc => exact ⟨h.entries, h.assigning, fun g tid' l' hpc' => (by cases hpc'), fun g hg => (by cases hg)⟩
  | joinAccept hpc hj hd =>
    exact ⟨h.entries, h.assigning, fun g tid' l' hpc' => (by cases hpc'), fun g hg => (by cases hg)⟩
  | noAccept hpc hj => exact ⟨h.entries, h.assigning, fun g tid' l' hpc' => (by cases hpc'), fun g hg => (by cases hg)⟩
  | base hpc => exact ⟨h.entries, h.assigning, fun g tid' l' hpc' => (by cases hpc'), fun g hg => (by cases hg)⟩

theorem named_step {a : Act} (h : Named s) (hs : s.step a = some t) : Named t := by
  have hh : ∀ tid, s.handlers tid ≠ none → t.handlers tid ≠ none := fun tid => step_handlers hs
  obtain ⟨-, hs⟩ := step_cases hs
  cases a with
  | accept a => exact named_acceptStep h hs hh
  | handler tid a => exact named_same h (HandlerStep.same hs) hh
  | stop a => exact named_stopStep h hs
  | user u a => exact named_same h (UserStep.same hs) hh
  | world a => exact named_same h (WorldStep.same hs) hh

theorem named_run (h0 : Started s) (hrun : run step s as = some t) : Named t := by
  refine run_invariant (fun s a t => named_step) ?_ hrun
  refine ⟨fun fd tid hj => absurd hj (h0.threads fd tid), ?_, ?_, ?_⟩
  · intro fd tid ha
    rw [h0.accept] at ha; cases ha
  · intro fd tid l hj
    rw [h0.stop] at hj; cases hj
  · intro fd hfd
    rw [h0.stop] at hfd; cases hfd

end ComClient.Server.TCPServer
