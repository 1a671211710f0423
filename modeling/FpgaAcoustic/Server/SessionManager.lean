-- SUMMARY: The session manager: the sessions by their ids, the ids to be used again, and why a new session never takes the id of another.
import Mathlib.Data.Int.Cast.Lemmas
import FpgaAcoustic.Alloc.IdPool

/-!
# The session manager

A session gets the id that has last been given back, or else the number of
sessions. Each operation holds the mutex of the manager, `delete_all` only for
one session at a time.
-/

namespace Koheron

abbrev SessionID : Type := ℤ

inductive SocketType
  | tcp
  | unix
  | websock
  deriving DecidableEq, Repr

/-- What the manager looks up in a session. -/
structure PooledSession where
  type : SocketType
  commFd : ℤ
  deriving DecidableEq, Repr

structure SessionManager where
  numberOfSessions : ℤ
  sessionPool : Std.TreeMap SessionID PooledSession
  /-- The vector from its back. -/
  reusableIds : List SessionID
  /-- The descriptors that have been shut down and closed, the last one first. -/
  closed : List ℤ

namespace SessionManager

def empty : SessionManager := ⟨0, ∅, [], []⟩

variable (m : SessionManager)

/-- `create_session`: the id, and the manager with the session. -/
def createSession (type : SocketType) (commFd : ℤ) : SessionID × SessionManager :=
  let (newId, reusableIds) :=
    match m.reusableIds with
    | [] => (m.numberOfSessions, [])
    | id :: ids => (id, ids)
  (newId, { m with
    sessionPool := m.sessionPool.insertIfNew newId ⟨type, commFd⟩
    reusableIds
    numberOfSessions := m.numberOfSessions + 1 })

def getSessionIds : List SessionID := m.sessionPool.keys

def isIdInSessionIds (id : SessionID) : Bool := m.getSessionIds.any fun currId => currId == id

def deleteSession (id : SessionID) : SessionManager :=
  if !m.isIdInSessionIds id then m
  else
    { sessionPool := m.sessionPool.erase id
      reusableIds := id :: m.reusableIds
      numberOfSessions := m.numberOfSessions - 1
      closed := (m.sessionPool[id]?.map PooledSession.commFd).toList ++ m.closed }

def deleteAll : SessionManager :=
  if m.sessionPool.isEmpty then m
  else m.getSessionIds.foldl (fun m id => m.deleteSession id) m

/-- The operations that change the manager. -/
inductive Op
  | create (type : SocketType) (commFd : ℤ)
  | delete (id : SessionID)
  | deleteAll

def step (m : SessionManager) : Op → SessionManager
  | .create type commFd => (m.createSession type commFd).2
  | .delete id => m.deleteSession id
  | .deleteAll => m.deleteAll

/-- The manager after these operations. -/
def run (ops : List Op) : SessionManager := ops.foldl step empty

/-! ## The pool of ids -/

/-- The ids as the manager numbers them. -/
def idName : ℕ ↪ SessionID := ⟨Nat.cast, Nat.cast_injective⟩

/-- The ids of the manager are those of the pool. -/
structure Represents (m : SessionManager) (p : Alloc.IdPool idName) : Prop where
  used : ∀ id, id ∈ p.used ↔ id ∈ m.sessionPool
  free : p.free = m.reusableIds
  number : m.numberOfSessions = m.sessionPool.size

section Represents

variable {m : SessionManager} {p : Alloc.IdPool idName}

theorem isIdInSessionIds_iff {id : SessionID} : m.isIdInSessionIds id = true ↔ id ∈ m.sessionPool := by
  simp [isIdInSessionIds, getSessionIds, Std.TreeMap.mem_keys]

theorem deleteSession_of_notMem {id : SessionID} (h : id ∉ m.sessionPool) :
    m.deleteSession id = m := by
  rw [deleteSession, if_pos]
  rw [Bool.not_eq_true', ← Bool.not_eq_true, isIdInSessionIds_iff]
  exact h

theorem deleteSession_of_mem {id : SessionID} (h : id ∈ m.sessionPool) :
    m.deleteSession id =
      { sessionPool := m.sessionPool.erase id
        reusableIds := id :: m.reusableIds
        numberOfSessions := m.numberOfSessions - 1
        closed := (m.sessionPool[id]?.map PooledSession.commFd).toList ++ m.closed } := by
  rw [deleteSession, if_neg]
  rw [isIdInSessionIds_iff.mpr h]
  exact Bool.false_ne_true

theorem getElem?_deleteSession (m : SessionManager) (id other : SessionID) :
    (m.deleteSession id).sessionPool[other]? =
      if other = id then none else m.sessionPool[other]? := by
  by_cases h : id ∈ m.sessionPool
  · rw [deleteSession_of_mem h, Std.TreeMap.getElem?_erase]
    simp only [compare_eq_iff_eq, @eq_comm SessionID id]
  · rw [deleteSession_of_notMem h]
    rcases eq_or_ne other id with rfl | hne
    · rw [if_pos rfl, Std.TreeMap.getElem?_eq_none h]
    · rw [if_neg hne]

theorem represents_empty : Represents empty .empty where
  used id := by simp [Alloc.IdPool.empty, empty]
  free := rfl
  number := by simp [empty]

theorem Represents.card (h : Represents m p) : p.used.card = m.sessionPool.size := by
  have hkeys : p.used = m.sessionPool.keys.toFinset := by
    ext id
    rw [List.mem_toFinset, Std.TreeMap.mem_keys, h.used]
  have hnodup : m.sessionPool.keys.Nodup := by
    refine m.sessionPool.distinct_keys.imp ?_
    intro a b hne heq
    exact hne (heq ▸ compare_eq_iff_eq.mpr rfl)
  rw [hkeys, List.toFinset_card_of_nodup hnodup, Std.TreeMap.length_keys]

/-- The id of a new session is the one that the pool gives out. -/
theorem Represents.createSession (h : Represents m p) (type : SocketType) (commFd : ℤ) :
    (m.createSession type commFd).1 = p.next ∧
      Represents (m.createSession type commFd).2 p.alloc := by
  have hnext : (m.createSession type commFd).1 = p.next ∧
      (m.createSession type commFd).2.reusableIds = p.free.tail := by
    rw [h.free, Alloc.IdPool.next, h.free, SessionManager.createSession]
    cases hids : m.reusableIds with
    | nil => exact ⟨by rw [h.card]; exact h.number, rfl⟩
    | cons id ids => exact ⟨rfl, rfl⟩
  have hpool : (m.createSession type commFd).2.sessionPool =
      m.sessionPool.insertIfNew p.next ⟨type, commFd⟩ := by
    rw [← hnext.1]
    rfl
  have hnew : p.next ∉ m.sessionPool := fun hmem => p.next_notMem ((h.used _).mpr hmem)
  refine ⟨hnext.1, ?_, hnext.2.symm, ?_⟩
  · intro id
    show id ∈ insert p.next p.used ↔ _
    rw [hpool, Finset.mem_insert, h.used, Std.TreeMap.mem_insertIfNew, compare_eq_iff_eq, eq_comm]
  · rw [hpool, Std.TreeMap.size_insertIfNew, if_neg hnew]
    show m.numberOfSessions + 1 = _
    rw [h.number]
    exact (Nat.cast_succ _).symm

theorem Represents.createSession_notMem (h : Represents m p) (type : SocketType) (commFd : ℤ) :
    (m.createSession type commFd).1 ∉ m.sessionPool := by
  rw [(h.createSession type commFd).1, ← h.used]
  exact p.next_notMem

theorem Represents.getElem?_createSession (h : Represents m p) (type : SocketType) (commFd : ℤ)
    (id : SessionID) :
    (m.createSession type commFd).2.sessionPool[id]? =
      if id = (m.createSession type commFd).1 then some ⟨type, commFd⟩
      else m.sessionPool[id]? := by
  have hunused := h.createSession_notMem type commFd
  show (m.sessionPool.insertIfNew (m.createSession type commFd).1 ⟨type, commFd⟩)[id]? = _
  rw [Std.TreeMap.getElem?_insertIfNew]
  simp only [compare_eq_iff_eq, hunused, not_false_eq_true, and_true, @eq_comm SessionID id]

theorem Represents.deleteSession (h : Represents m p) (id : SessionID) :
    ∃ p', Represents (m.deleteSession id) p' := by
  by_cases hmem : id ∈ m.sessionPool
  · refine ⟨p.release id ((h.used id).mpr hmem), ?_⟩
    rw [deleteSession_of_mem hmem]
    refine ⟨?_, ?_, ?_⟩
    · intro other
      show other ∈ p.used.erase id ↔ other ∈ m.sessionPool.erase id
      rw [Finset.mem_erase, h.used, Std.TreeMap.mem_erase, ne_comm, ne_eq, ne_eq,
        compare_eq_iff_eq]
    · exact congrArg (id :: ·) h.free
    · have hpos : 0 < m.sessionPool.size := by
        rw [← h.card]
        exact Finset.card_pos.mpr ⟨id, (h.used id).mpr hmem⟩
      show m.numberOfSessions - 1 = ((m.sessionPool.erase id).size : ℤ)
      rw [Std.TreeMap.size_erase, if_pos (Std.TreeMap.mem_iff_contains.mp hmem), h.number,
        Nat.cast_sub hpos]
      rfl
  · rw [deleteSession_of_notMem hmem]
    exact ⟨p, h⟩

theorem Represents.deleteAll (h : Represents m p) : ∃ p', Represents m.deleteAll p' := by
  unfold SessionManager.deleteAll
  split
  · exact ⟨p, h⟩
  · refine List.foldlRecOn (motive := fun m => ∃ p, Represents m p) _ _ ⟨p, h⟩ ?_
    rintro m' ⟨p', h'⟩ id -
    exact h'.deleteSession id

theorem Represents.step (h : Represents m p) (op : Op) : ∃ p', Represents (m.step op) p' := by
  cases op with
  | create type commFd => exact ⟨_, (h.createSession type commFd).2⟩
  | delete id => exact h.deleteSession id
  | deleteAll => exact h.deleteAll

theorem exists_represents (ops : List Op) : ∃ p, Represents (run ops) p := by
  refine List.foldlRecOn (motive := fun m => ∃ p, Represents m p) _ _ ⟨_, represents_empty⟩ ?_
  rintro m ⟨p, h⟩ op -
  exact h.step op

/-! ## Allocation -/

/-- The ids of the sessions and the ids to be used again are the first numbers,
each of them once. -/
structure Allocated (m : SessionManager) : Prop where
  number : m.numberOfSessions = m.sessionPool.size
  nodup : m.reusableIds.Nodup
  disjoint : ∀ id ∈ m.reusableIds, id ∉ m.sessionPool
  cover : ∃ k : ℕ, ∀ id, id ∈ m.sessionPool ∨ id ∈ m.reusableIds ↔ 0 ≤ id ∧ id < k

theorem Represents.allocated (h : Represents m p) : m.Allocated where
  number := h.number
  nodup := h.free ▸ p.nodup
  disjoint id hid hmem := p.disjoint id (h.free ▸ hid) ((h.used id).mpr hmem)
  cover := by
    refine ⟨p.size, fun id => ?_⟩
    rw [← h.used, ← h.free, p.mem_iff]
    constructor
    · rintro ⟨i, hi, rfl⟩
      exact ⟨Int.natCast_nonneg i, Int.ofNat_lt.mpr hi⟩
    · rintro ⟨hnonneg, hlt⟩
      exact ⟨id.toNat, (Int.toNat_lt hnonneg).mpr hlt, Int.toNat_of_nonneg hnonneg⟩

/-- A new session has an id of its own, and every other session stays. -/
structure Fresh (m : SessionManager) (type : SocketType) (commFd : ℤ) : Prop where
  unused : (m.createSession type commFd).1 ∉ m.sessionPool
  added : (m.createSession type commFd).2.sessionPool[(m.createSession type commFd).1]? =
    some ⟨type, commFd⟩
  kept : ∀ (id : SessionID) (session : PooledSession), m.sessionPool[id]? = some session →
    (m.createSession type commFd).2.sessionPool[id]? = some session

theorem Represents.fresh (h : Represents m p) (type : SocketType) (commFd : ℤ) :
    m.Fresh type commFd := by
  have hunused := h.createSession_notMem type commFd
  refine ⟨hunused, ?_, ?_⟩
  · rw [h.getElem?_createSession, if_pos rfl]
  · intro id session hsession
    have hmem : id ∈ m.sessionPool := by
      rw [Std.TreeMap.mem_iff_isSome_getElem?, hsession]
      rfl
    have hne : (m.createSession type commFd).1 ≠ id := fun heq => hunused (heq ▸ hmem)
    rw [h.getElem?_createSession, if_neg hne.symm]
    exact hsession

theorem run_allocated (ops : List Op) :
    (run ops).Allocated ∧ ∀ type commFd, (run ops).Fresh type commFd := by
  obtain ⟨p, h⟩ := exists_represents ops
  exact ⟨h.allocated, h.fresh⟩

theorem getElem?_foldl_deleteSession (ids : List SessionID) (m : SessionManager) (id : SessionID) :
    (ids.foldl (fun m id => m.deleteSession id) m).sessionPool[id]? =
      if id ∈ ids then none else m.sessionPool[id]? := by
  induction ids generalizing m with
  | nil => rfl
  | cons i ids ih =>
    rw [List.foldl_cons, ih, getElem?_deleteSession]
    simp only [List.mem_cons]
    split_ifs <;> tauto

/-- After `delete_all` there is no session, as its last assertion says. -/
theorem Represents.deleteAll_number (h : Represents m p) : m.deleteAll.numberOfSessions = 0 := by
  obtain ⟨p', h'⟩ := h.deleteAll
  rw [h'.number]
  have hempty : ∀ id, id ∉ m.deleteAll.sessionPool := by
    intro id
    rw [Std.TreeMap.mem_iff_isSome_getElem?, SessionManager.deleteAll]
    split
    · rename_i hnone
      rw [Std.TreeMap.getElem?_of_isEmpty hnone]
      exact Bool.false_ne_true
    · rw [getElem?_foldl_deleteSession]
      split
      · exact Bool.false_ne_true
      · rename_i hid
        rw [getSessionIds, Std.TreeMap.mem_keys] at hid
        rw [Std.TreeMap.getElem?_eq_none hid]
        exact Bool.false_ne_true
  rw [← h'.card]
  have hused : p'.used = ∅ := by
    ext id
    simp [h'.used, hempty id]
  rw [hused]
  rfl

end Represents

end SessionManager

end Koheron
