/-
  ComClient.Server.Bounce — any number of `UDPServer`s without a callback, and a network in
  which anybody can send a datagram with any address as its source.

  A server echoes to the source that `recvfrom` reports. Where that is another server, the
  echo is a datagram for that one, which echoes it, too (`bounces`).

  - `bounces_never_end`: the servers never end a bounce nor start one, in any order of their
    steps. There are as many as were forged and not lost, and each of them can go on.
-/

import ComClient.Server.Echo

namespace ComClient.Echo

open ComClient.Lts ComClient.Transport
open ComClient.Server

structure Hosts where
  servers : SockAddr → Option UDPServer
  flying : List Packet

inductive HostsAct where
  | deliver (p : Packet)
  /-- Any other step of a receive thread or of `stop()`. -/
  | serve (me : SockAddr) (a : UdpAct)
  /-- Somebody sends a datagram. -/
  | forge (p : Packet)
  | lose (p : Packet)

namespace Hosts

def setServer (s : Hosts) (me : SockAddr) (u : UDPServer) : Hosts :=
  { s with servers := Function.update s.servers me (some u) }

def step (s : Hosts) : HostsAct → Option Hosts
  | .deliver p =>
    if p ∈ s.flying then
      (s.servers p.dst).bind fun u =>
        (u.step (.recvfrom (.datagram p.src p.payload))).map fun v =>
          let out := (v.outputs.drop u.outputs.length).filterMap (Net.packetOf p.dst)
          { s.setServer p.dst v with flying := s.flying.erase p ++ out }
    else none
  | .serve me a => if Net.isDatagram a then none else (s.servers me).bind fun u => (u.step a).map (s.setServer me)
  | .forge p => some { s with flying := s.flying ++ [p] }
  | .lose p => if p ∈ s.flying then some { s with flying := s.flying.erase p } else none

/-- From a server to a server, and not empty. -/
def bounces (s : Hosts) (p : Packet) : Bool :=
  (s.servers p.src).isSome && (s.servers p.dst).isSome && decide (p.payload ≠ [])

def forges (s : Hosts) : HostsAct → Bool
  | .forge p => s.bounces p
  | _ => false

def loses (s : Hosts) : HostsAct → Bool
  | .lose p => s.bounces p
  | _ => false

/-- Every server is in its loop, without a callback. -/
def Echoing (s : Hosts) : Prop :=
  ∀ me u, s.servers me = some u → UDPServer.Receiving u ∧ u.hasCallback = false

/-- No server is stopped or given a callback. -/
def Plain : HostsAct → Prop
  | .serve _ a => a ≠ .clear ∧ a ≠ .setCallback true
  | _ => True

instance : DecidablePred Plain := fun a => by
  cases a <;> unfold Plain <;> infer_instance

variable {s t : Hosts} {as : List HostsAct} {p : Packet}

/-! ## One step -/

theorem countP_erase_of_mem {α : Type} [DecidableEq α] {l : List α} {x : α} (hx : x ∈ l) (f : α → Bool) :
    (l.erase x).countP f + (if f x then 1 else 0) = l.countP f := by
  rw [(List.perm_cons_erase hx).countP_eq f, List.countP_cons]

/-- A step of one server keeps it in its loop, and keeps the addresses. -/
theorem echoing_set {me : SockAddr} {u v : UDPServer} {a : UdpAct} (h : Echoing s) (hu : s.servers me = some u)
    (ha : a ≠ .clear ∧ a ≠ .setCallback true) (hv : u.step a = some v) :
    Echoing (s.setServer me v) ∧ (s.setServer me v).bounces = s.bounces := by
  obtain ⟨hreceiving, hnone⟩ := h me u hu
  have hcallback : v.hasCallback = false := by
    rw [(UDPServer.does_step hv).hasCallback]
    cases a with
    | setCallback installed =>
      cases installed with
      | true => exact absurd rfl ha.2
      | false => rfl
    | _ => exact hnone
  constructor
  · intro you w hw
    by_cases hyou : you = me
    · subst hyou
      simp only [setServer, Function.update_self, Option.some.injEq] at hw
      subst hw
      exact ⟨UDPServer.receiving_step hreceiving ha.1 hv, hcallback⟩
    · simp only [setServer, Function.update_of_ne hyou] at hw
      exact h you w hw
  · have hsame : ∀ you, ((s.setServer me v).servers you).isSome = (s.servers you).isSome := by
      intro you
      by_cases hyou : you = me
      · subst hyou
        simp [setServer, hu]
      · simp [setServer, Function.update_of_ne hyou]
    funext q
    unfold bounces
    rw [hsame, hsame]

/-- The echo of a datagram bounces if and only if the datagram does. -/
theorem countP_echo {u v : UDPServer} (hu : s.servers p.dst = some u) (hnone : u.hasCallback = false)
    (hv : u.step (.recvfrom (.datagram p.src p.payload)) = some v) :
    ((v.outputs.drop u.outputs.length).filterMap (Net.packetOf p.dst)).countP s.bounces = if s.bounces p then 1 else 0 := by
  have hecho : (v.outputs.drop u.outputs.length).filterMap (Net.packetOf p.dst) =
      Net.echoOf p.dst ⟨u, fun _ => none, [], [], []⟩ p :=
    Net.echoOf_eq (s := ⟨u, fun _ => none, [], [], []⟩) hv
  rw [hecho]
  have hstored : UDPServer.stored p.payload = [] ↔ p.payload = [] := by
    simp [UDPServer.stored, UDPServer.bufferSize]
  unfold Net.echoOf
  by_cases hempty : p.payload = []
  · rw [if_pos (Or.inl (hstored.mpr hempty))]
    simp [bounces, hempty]
  · have hne : UDPServer.stored p.payload ≠ [] := mt hstored.mp hempty
    rw [if_neg (not_or.mpr ⟨hne, by simp [hnone]⟩), List.countP_singleton]
    simp [bounces, hempty, hne, hu]

/-- What a step leaves of the bounces. -/
structure Keeps (s : Hosts) (a : HostsAct) (t : Hosts) : Prop where
  echoing : Echoing t
  bounces : t.bounces = s.bounces
  count : t.flying.countP s.bounces + (if s.loses a then 1 else 0) =
    s.flying.countP s.bounces + (if s.forges a then 1 else 0)

theorem keeps_step {a : HostsAct} (h : Echoing s) (ha : Plain a) (hs : s.step a = some t) : Keeps s a t := by
  cases a with
  | deliver p =>
    obtain ⟨hp, hs⟩ := Option.ite_none_right_eq_some.mp hs
    obtain ⟨u, hu, hs⟩ := Option.bind_eq_some_iff.mp hs
    obtain ⟨v, hv, hs⟩ := Option.map_eq_some_iff.mp hs
    cases hs
    have ha : UdpAct.recvfrom (.datagram p.src p.payload) ≠ .clear ∧
        UdpAct.recvfrom (.datagram p.src p.payload) ≠ .setCallback true := by simp
    obtain ⟨hechoing, hbounces⟩ := echoing_set h hu ha hv
    refine ⟨hechoing, hbounces, ?_⟩
    show (s.flying.erase p ++ _).countP s.bounces + 0 = s.flying.countP s.bounces + 0
    rw [List.countP_append, countP_echo hu (h p.dst u hu).2 hv, countP_erase_of_mem hp]
  | serve me a =>
    obtain ⟨-, hs⟩ := Option.ite_none_left_eq_some.mp hs
    obtain ⟨u, hu, hs⟩ := Option.bind_eq_some_iff.mp hs
    obtain ⟨v, hv, hs⟩ := Option.map_eq_some_iff.mp hs
    cases hs
    obtain ⟨hechoing, hbounces⟩ := echoing_set h hu ha hv
    exact ⟨hechoing, hbounces, rfl⟩
  | forge p =>
    cases hs
    refine ⟨h, rfl, ?_⟩
    show (s.flying ++ [p]).countP s.bounces + 0 = _
    rw [List.countP_append, List.countP_singleton, Nat.add_zero]
    rfl
  | lose p =>
    obtain ⟨hp, hs⟩ := Option.ite_none_right_eq_some.mp hs
    cases hs
    refine ⟨h, rfl, ?_⟩
    exact countP_erase_of_mem hp s.bounces

/-- A bounce goes on as soon as the thread of its server comes to `recvfrom`. -/
theorem bounce_goes_on (h : Echoing s) (hp : p ∈ s.flying) (hb : s.bounces p = true) :
    s.step (.deliver p) ≠ none ∨ s.step (.serve p.dst .go) ≠ none := by
  have hdst : (s.servers p.dst).isSome = true := by
    simp only [bounces, Bool.and_eq_true] at hb
    exact hb.1.2
  obtain ⟨u, hu⟩ := Option.isSome_iff_exists.mp hdst
  cases hpc : u.receive with
  | check =>
    refine Or.inr ?_
    simp [step, Net.isDatagram, hu, UDPServer.step, hpc]
  | recvfrom =>
    refine Or.inl ?_
    simp [step, hp, hu, UDPServer.step, hpc]
  | done => exact absurd hpc (h p.dst u hu).1.inLoop

/-! ## Runs -/

/-- In every run in which no server is stopped or given a callback: the datagrams that bounce
    from server to server are as many as there were, and were forged since, without those
    that the network lost, and each of them can be delivered, at once or after a step of its
    server. -/
theorem bounces_never_end (h0 : Echoing s) (hplain : ∀ a ∈ as, Plain a) (hrun : run step s as = some t) :
    t.flying.countP t.bounces + as.countP s.loses = s.flying.countP s.bounces + as.countP s.forges ∧
      ∀ p ∈ t.flying, t.bounces p = true → t.step (.deliver p) ≠ none ∨ t.step (.serve p.dst .go) ≠ none := by
  have hall : Echoing t ∧ t.bounces = s.bounces ∧
      t.flying.countP s.bounces + as.countP s.loses = s.flying.countP s.bounces + as.countP s.forges := by
    refine run_trace_of_forall (I := fun as t => Echoing t ∧ t.bounces = s.bounces ∧
      t.flying.countP s.bounces + as.countP s.loses = s.flying.countP s.bounces + as.countP s.forges) ?_
      ⟨h0, rfl, rfl⟩ hplain hrun
    intro as m a n hm ha hs
    obtain ⟨hechoing, hbounces, hcount⟩ := hm
    have hkeeps := keeps_step hechoing ha hs
    have hloses : m.loses a = s.loses a := by
      cases a <;> simp [loses, hbounces]
    have hforges : m.forges a = s.forges a := by
      cases a <;> simp [forges, hbounces]
    have hstep := hkeeps.count
    rw [hbounces, hloses, hforges] at hstep
    refine ⟨hkeeps.echoing, hkeeps.bounces.trans hbounces, ?_⟩
    rw [List.countP_append, List.countP_append, List.countP_singleton, List.countP_singleton]
    omega
  obtain ⟨hechoing, hbounces, hcount⟩ := hall
  rw [← hbounces] at hcount
  refine ⟨?_, fun p hp => bounce_goes_on hechoing hp⟩
  rw [hbounces] at hcount ⊢
  exact hcount

/-- Two servers, and one datagram to the first that says that the second has sent it. -/
def left : SockAddr := ⟨0x0a000001, 7⟩

def right : SockAddr := ⟨0x0a000002, 7⟩

def pair : Hosts := ⟨fun a => if a = left ∨ a = right then some UDPServer.started else none, []⟩

def oneForged : List HostsAct :=
  [.forge ⟨right, left, [1]⟩, .serve left .go, .deliver ⟨right, left, [1]⟩, .serve right .go, .deliver ⟨left, right, [1]⟩,
    .serve left .go, .deliver ⟨right, left, [1]⟩]

theorem bounces_never_end_after_one :
    ∃ t, run step pair oneForged = some t ∧ t.flying = [⟨left, right, [1]⟩] ∧
      t.flying.countP t.bounces + oneForged.countP pair.loses =
        pair.flying.countP pair.bounces + oneForged.countP pair.forges ∧
      ∀ p ∈ t.flying, t.bounces p = true → t.step (.deliver p) ≠ none ∨ t.step (.serve p.dst .go) ≠ none := by
  have hrun : (run step pair oneForged).map (·.flying) = some [⟨left, right, [1]⟩] := by decide +kernel
  obtain ⟨t, ht, hflying⟩ := Option.map_eq_some_iff.mp hrun
  have hechoing : Echoing pair := by
    intro me u hu
    obtain ⟨-, hu⟩ := Option.ite_none_right_eq_some.mp hu
    cases hu
    exact ⟨⟨rfl, nofun⟩, rfl⟩
  exact ⟨t, ht, hflying, bounces_never_end hechoing (by decide) ht⟩

end Hosts

end ComClient.Echo
