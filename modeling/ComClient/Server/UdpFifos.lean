/-
  ComClient.Server.UdpFifos — what the receive loop of a `UDPServer` has done after any
  sequence of datagrams and errors.

  - `receive_loop`: the buffer's surroundings are untouched, `m_fifos` holds for each
    sender the payloads that came from it, cut to what `recvfrom` was asked for, and each
    datagram that is not empty has caused one callback or one echo, by whether a callback
    was installed then.
-/

import ComClient.Server.Udp

namespace ComClient.Server.UDPServer

open ComClient.Lts
open ComClient.Transport (Byte Mem store load SockAddr)
open ComClient.Transport

variable {s t : UDPServer} {as : List UdpAct}

/-! ## What the datagrams call for -/

/-- What `recvfrom` stores of a datagram. -/
def stored (payload : List Byte) : List Byte := payload.take (bufferSize - 1)

/-- The bytes an action brings from the address. -/
def bringsFrom (addr : BitVec 32) : UdpAct → List Byte
  | .recvfrom (.datagram src payload) => if src.addr = addr then stored payload else []
  | _ => []

def receivedFrom (addr : BitVec 32) (as : List UdpAct) : List Byte := as.flatMap (bringsFrom addr)

def installs (installed : Bool) : UdpAct → Bool
  | .setCallback b => b
  | _ => installed

/-- What an action calls for while a callback is installed, or is not. -/
def answers (installed : Bool) : UdpAct → List Output
  | .recvfrom (.datagram src payload) =>
    if stored payload = [] then []
    else if installed then [.callback src (stored payload)]
    else [.echo src sockaddrSize (stored payload)]
  | _ => []

def dueOutputs : Bool → List UdpAct → List Output
  | _, [] => []
  | installed, a :: as => answers installed a ++ dueOutputs (installs installed a) as

theorem length_stored (payload : List Byte) : (stored payload).length < bufferSize := by
  unfold stored bufferSize
  rw [List.length_take]
  omega

/-! ## One step -/

/-- The buffer holds what was received, and a terminator behind it. -/
theorem load_terminated (m : Mem) (bytes : List Byte) :
    load (store (store m 0 bytes) bytes.length [0]) 0 (bytes.length + 1) = bytes ++ [0] := by
  have hboth : store (store m 0 bytes) bytes.length [0] = store m 0 (bytes ++ [0]) := by
    have h := store_store m 0 bytes [0]
    rwa [Int.zero_add] at h
  have hload := load_store_same m 0 (bytes ++ [0])
  rw [List.length_append, List.length_singleton] at hload
  rw [hboth, hload]

theorem load_received (m : Mem) (bytes : List Byte) :
    load (store (store m 0 bytes) bytes.length [0]) 0 bytes.length = bytes := by
  rw [load_store_out _ _ _ (by omega), load_store_same]

/-- Receiving a datagram that is empty, or that is not. -/
theorem recvfrom_datagram (s : UDPServer) (src : SockAddr) (payload : List Byte) :
    s.recvfrom (.datagram src payload) =
      if stored payload = [] then { s with clientAddr := src, clientAddrLen := sockaddrSize }
      else { s with
        clientAddr := src
        clientAddrLen := sockaddrSize
        buffer := store (store s.buffer 0 (stored payload)) (stored payload).length [0]
        fifos := s.fifos.insert src.addr ((s.fifos.lookup src.addr).getD [] ++ stored payload)
        outputs := s.outputs ++ answers s.hasCallback (.recvfrom (.datagram src payload)) } := by
  have hbytes : payload.take (bufferSize - 1) = stored payload := rfl
  unfold recvfrom
  simp only [hbytes]
  by_cases hempty : stored payload = []
  · simp [hempty]
  · have hpos : 0 < (stored payload).length := List.length_pos_iff.mpr hempty
    simp only [if_pos hpos, if_neg hempty, handle, load_received, answers]
    cases s.hasCallback <;> rfl

/-- Bytes are added to an entry, which is made for the first of them. -/
def addTo (entry : Option (List Byte)) (bytes : List Byte) : Option (List Byte) :=
  if bytes = [] then entry else some (entry.getD [] ++ bytes)

theorem addTo_append (entry : Option (List Byte)) (a b : List Byte) : addTo (addTo entry a) b = addTo entry (a ++ b) := by
  unfold addTo
  by_cases ha : a = []
  · simp [ha]
  · by_cases hb : b = []
    · simp [ha, hb]
    · simp [ha, hb]

/-- What one action leaves of everything the thread works with. -/
structure Does (s : UDPServer) (a : UdpAct) (t : UDPServer) : Prop where
  outside : ∀ i : Int, i < 0 ∨ bufferSize ≤ i → t.buffer i = s.buffer i
  fifos : ∀ addr, t.fifos.lookup addr = addTo (s.fifos.lookup addr) (bringsFrom addr a)
  outputs : t.outputs = s.outputs ++ answers s.hasCallback a
  hasCallback : t.hasCallback = installs s.hasCallback a

theorem does_nothing {a : UdpAct} (hb : t.buffer = s.buffer) (hf : t.fifos = s.fifos) (ho : t.outputs = s.outputs)
    (hc : t.hasCallback = installs s.hasCallback a) (hnone : ∀ addr, bringsFrom addr a = [])
    (hquiet : answers s.hasCallback a = []) : Does s a t where
  outside i _ := by rw [hb]
  fifos addr := by rw [hf, hnone]; rfl
  outputs := by rw [ho, hquiet, List.append_nil]
  hasCallback := hc

theorem does_datagram (src : SockAddr) (payload : List Byte) :
    Does s (.recvfrom (.datagram src payload)) (s.recvfrom (.datagram src payload)) := by
  rw [recvfrom_datagram]
  by_cases hempty : stored payload = []
  · rw [if_pos hempty]
    exact does_nothing rfl rfl rfl rfl (fun addr => by simp [bringsFrom, hempty]) (by simp [answers, hempty])
  · rw [if_neg hempty]
    have hlen := length_stored payload
    refine ⟨?_, ?_, rfl, rfl⟩
    · intro i hi
      dsimp only
      rw [store_out _ _ _ (by simp only [List.length_singleton]; omega), store_out _ _ _ (by omega)]
    · intro addr
      simp only [bringsFrom]
      by_cases haddr : src.addr = addr
      · subst haddr
        rw [AList.lookup_insert, if_pos rfl, addTo, if_neg hempty]
      · rw [AList.lookup_insert_ne (Ne.symm haddr), if_neg haddr]
        rfl

theorem does_step {a : UdpAct} (hs : s.step a = some t) : Does s a t := by
  cases a with
  | go =>
    simp only [step] at hs
    split at hs
    · cases hs
      exact does_nothing rfl rfl rfl rfl (fun _ => rfl) rfl
    · cases hs
  | recvfrom r =>
    obtain ⟨-, hs⟩ := Option.ite_none_right_eq_some.mp hs
    cases hs
    cases r with
    | datagram src payload =>
      have h := does_datagram (s := s) src payload
      exact ⟨h.outside, h.fifos, h.outputs, h.hasCallback⟩
    | error e => exact does_nothing rfl rfl rfl rfl (fun _ => rfl) rfl
  | setCallback installed =>
    cases hs
    exact does_nothing rfl rfl rfl rfl (fun _ => rfl) rfl
  | clear =>
    obtain ⟨-, hs⟩ := Option.ite_none_right_eq_some.mp hs
    cases hs
    exact does_nothing rfl rfl rfl rfl (fun _ => rfl) rfl

/-! ## Runs -/

/-- What a run has done is what its actions do, one after the other. -/
theorem does_run (hrun : run step s as = some t) :
    (∀ i : Int, i < 0 ∨ bufferSize ≤ i → t.buffer i = s.buffer i) ∧
      (∀ addr, t.fifos.lookup addr = addTo (s.fifos.lookup addr) (receivedFrom addr as)) ∧
      t.outputs = s.outputs ++ dueOutputs s.hasCallback as := by
  induction as generalizing s with
  | nil =>
    cases hrun
    exact ⟨fun _ _ => rfl, fun _ => rfl, (List.append_nil _).symm⟩
  | cons a as ih =>
    obtain ⟨m, hm, hrun⟩ := run_cons.mp hrun
    have hstep := does_step hm
    obtain ⟨hout, hfifos, houtputs⟩ := ih hrun
    refine ⟨?_, ?_, ?_⟩
    · intro i hi
      rw [hout i hi, hstep.outside i hi]
    · intro addr
      rw [hfifos, hstep.fifos, addTo_append]
      rfl
    · rw [houtputs, hstep.outputs, hstep.hasCallback, List.append_assoc]
      rfl

/-- The thread of a new server has been started. -/
structure Fresh (s : UDPServer) : Prop where
  started : Started s
  fifos : s.fifos = ∅
  outputs : s.outputs = []

/-- After any run: nothing outside the buffer has been written, the next terminator will be
    inside it, each sender's FIFO holds its payloads, and nobody else has one; the callbacks
    and echoes are those that the datagrams called for. -/
theorem receive_loop (h0 : Fresh s) (hrun : run step s as = some t) :
    (∀ i : Int, i < 0 ∨ bufferSize ≤ i → t.buffer i = s.buffer i) ∧
      (∀ src payload v, payload ≠ [] → t.step (.recvfrom (.datagram src payload)) = some v →
        (stored payload).length < bufferSize ∧
          load v.buffer 0 ((stored payload).length + 1) = stored payload ++ [0]) ∧
      (∀ addr, t.fifos.lookup addr =
        if receivedFrom addr as = [] then none else some (receivedFrom addr as)) ∧
      t.outputs = dueOutputs s.hasCallback as := by
  obtain ⟨hout, hfifos, houtputs⟩ := does_run hrun
  refine ⟨hout, ?_, ?_, ?_⟩
  · intro src payload v hne hv
    obtain ⟨-, hv⟩ := Option.ite_none_right_eq_some.mp hv
    cases hv
    have hstored : stored payload ≠ [] := by
      simpa [stored, bufferSize] using hne
    rw [recvfrom_datagram, if_neg hstored]
    exact ⟨length_stored payload, load_terminated t.buffer (stored payload)⟩
  · intro addr
    rw [hfifos, h0.fifos]
    simp [addTo]
  · rw [houtputs, h0.outputs, List.nil_append]

/-- Two senders, an error, an empty datagram, and a callback that comes in between. -/
def mixedTraffic : List UdpAct :=
  [.go, .recvfrom (.datagram ⟨0x7f000001, 5000⟩ [1, 2]), .go, .recvfrom (.error EAGAIN), .setCallback true, .go,
    .recvfrom (.datagram ⟨0x0a000001, 6000⟩ []), .go, .recvfrom (.datagram ⟨0x7f000001, 5001⟩ [3])]

theorem receive_loop_of_mixed_traffic :
    ∃ t, run step started mixedTraffic = some t ∧
      (∀ i : Int, i < 0 ∨ bufferSize ≤ i → t.buffer i = started.buffer i) ∧
      (∀ src payload v, payload ≠ [] → t.step (.recvfrom (.datagram src payload)) = some v →
        (stored payload).length < bufferSize ∧
          load v.buffer 0 ((stored payload).length + 1) = stored payload ++ [0]) ∧
      (∀ addr, t.fifos.lookup addr =
        if receivedFrom addr mixedTraffic = [] then none else some (receivedFrom addr mixedTraffic)) ∧
      t.outputs = dueOutputs started.hasCallback mixedTraffic := by
  have hrun : (run step started mixedTraffic).isSome = true := by decide +kernel
  obtain ⟨t, ht⟩ := Option.isSome_iff_exists.mp hrun
  exact ⟨t, ht, receive_loop ⟨started_started, rfl, rfl⟩ ht⟩

example : dueOutputs false mixedTraffic =
    [.echo ⟨0x7f000001, 5000⟩ 16 [1, 2], .callback ⟨0x7f000001, 5001⟩ [3]] := by decide

end ComClient.Server.UDPServer
