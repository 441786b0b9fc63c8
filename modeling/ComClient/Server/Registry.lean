/-
  ComClient.Server.Registry — the three containers in which a `TCPServer` keeps its
  clients (`src/include/tcp_client.hpp`): `m_clients`, `m_fifos` and `m_mutexes`.

  Each operation below is one map operation or one section under `m_mutexes[i]`.
  `m_fifos[i]` and `m_mutexes[i]` insert an empty entry where there is none
  (`touchFifo`, `lock`), so most operations may leave more keys than they found.
-/

import ComClient.Transport.Memory

namespace ComClient.Server

open ComClient.Transport (Byte)

/-- A descriptor. -/
abbrev Socket := Int

structure Registry where
  clients : List Socket
  fifos : AList fun _ : Socket => List Byte
  mutexes : AList fun _ : Socket => Unit

namespace Registry

def empty : Registry := ⟨[], ∅, ∅⟩

/-- The content of `m_fifos[i]`, without inserting it. -/
def fifo (r : Registry) (i : Socket) : List Byte := (r.fifos.lookup i).getD []

/-- `m_fifos[i]` -/
def touchFifo (r : Registry) (i : Socket) : Registry := if i ∈ r.fifos then r else { r with fifos := r.fifos.insert i [] }

/-- `m_mutexes[i]` -/
def lock (r : Registry) (i : Socket) : Registry := { r with mutexes := r.mutexes.insert i () }

/-- `m_fifos[i] = bytes` -/
def setFifo (r : Registry) (i : Socket) (bytes : List Byte) : Registry := { r with fifos := r.fifos.insert i bytes }

def insertClient (r : Registry) (i : Socket) : Registry := { r with clients := r.clients.insert i }

def eraseClient (r : Registry) (i : Socket) : Registry := { r with clients := r.clients.erase i }

def eraseFifo (r : Registry) (i : Socket) : Registry := { r with fifos := r.fifos.erase i }

def eraseMutex (r : Registry) (i : Socket) : Registry := { r with mutexes := r.mutexes.erase i }

/-- The handler's section: `m_fifos[i].insert(m_fifos[i].end(), ..)`. -/
def append (r : Registry) (i : Socket) (bytes : List Byte) : Registry := (r.lock i).setFifo i (r.fifo i ++ bytes)

/-- `n_available = m_fifos[i].size()`, under the lock. -/
def sample (r : Registry) (i : Socket) : Registry × Nat := ((r.lock i).touchFifo i, (r.fifo i).length)

/-- `size = std::min(size, m_fifos[i].size())`, without the lock. -/
def clamp (r : Registry) (i : Socket) (size : Nat) : Registry × Nat := (r.touchFifo i, min size (r.fifo i).length)

/-- The last section of `read_byte`: copy `n` bytes and erase them, if there are so many. -/
def copy (r : Registry) (i : Socket) (n : Nat) (erase : Bool) : Option (Registry × List Byte) :=
  if n ≤ (r.fifo i).length then
    let r' := (r.lock i).touchFifo i
    some (if erase then r'.setFifo i ((r.fifo i).drop n) else r', (r.fifo i).take n)
  else none

def clearFifo (r : Registry) (i : Socket) : Registry := (r.lock i).setFifo i []

/-! ## What an operation does to each container -/

section

variable (r : Registry) (i j : Socket) (bytes : List Byte)

@[simp] theorem clients_touchFifo : (r.touchFifo i).clients = r.clients := by unfold touchFifo; split <;> rfl

@[simp] theorem mutexes_touchFifo : (r.touchFifo i).mutexes = r.mutexes := by unfold touchFifo; split <;> rfl

@[simp] theorem fifo_lock : (r.lock i).fifo j = r.fifo j := rfl

theorem fifo_setFifo : (r.setFifo i bytes).fifo j = if j = i then bytes else r.fifo j := by
  unfold fifo setFifo
  split
  · rename_i h; subst h; simp
  · rename_i h; simp [AList.lookup_insert_ne h]

/-- An entry that `m_fifos[i]` inserts is empty, as a missing one counts. -/
@[simp] theorem fifo_touchFifo : (r.touchFifo i).fifo j = r.fifo j := by
  unfold touchFifo
  split
  · rfl
  · rename_i h
    have hnone : r.fifos.lookup i = none := AList.lookup_eq_none.mpr h
    have hset := fifo_setFifo r i j []
    unfold setFifo at hset
    rw [hset]
    split
    · rename_i hj; rw [hj, fifo, hnone]; rfl
    · rfl

theorem fifo_eraseFifo : (r.eraseFifo i).fifo j = if j = i then [] else r.fifo j := by
  unfold fifo eraseFifo
  split
  · rename_i h; subst h; simp
  · rename_i h; simp [AList.lookup_erase_ne h]

theorem fifo_append : (r.append i bytes).fifo j = if j = i then r.fifo i ++ bytes else r.fifo j :=
  fifo_setFifo (r.lock i) i j _

theorem fifo_clearFifo : (r.clearFifo i).fifo j = if j = i then [] else r.fifo j := fifo_setFifo (r.lock i) i j []

@[simp] theorem fifo_sample : (r.sample i).1.fifo j = r.fifo j := fifo_touchFifo (r.lock i) i j

@[simp] theorem fifo_clamp (size : Nat) : (r.clamp i size).1.fifo j = r.fifo j := fifo_touchFifo r i j

theorem copy_eq_some {n : Nat} {erase : Bool} {r' : Registry} (h : r.copy i n erase = some (r', bytes)) :
    n ≤ (r.fifo i).length ∧ bytes = (r.fifo i).take n ∧
      ∀ j, r'.fifo j = if j = i ∧ erase = true then (r.fifo i).drop n else r.fifo j := by
  obtain ⟨hn, h⟩ := Option.ite_none_right_eq_some.mp h
  obtain ⟨rfl, rfl⟩ := Prod.mk.inj (Option.some.inj h)
  refine ⟨hn, rfl, fun j => ?_⟩
  cases erase with
  | false => simp
  | true => simp [fifo_setFifo]

theorem mem_fifos_touchFifo : j ∈ (r.touchFifo i).fifos ↔ j = i ∨ j ∈ r.fifos := by
  unfold touchFifo
  split
  · rename_i h
    constructor
    · intro hj
      exact Or.inr hj
    · intro hj
      rcases hj with rfl | hj
      · exact h
      · exact hj
  · exact AList.mem_insert _

theorem mem_fifos_setFifo : j ∈ (r.setFifo i bytes).fifos ↔ j = i ∨ j ∈ r.fifos := AList.mem_insert _

theorem mem_mutexes_lock : j ∈ (r.lock i).mutexes ↔ j = i ∨ j ∈ r.mutexes := AList.mem_insert _

end

end Registry

end ComClient.Server
