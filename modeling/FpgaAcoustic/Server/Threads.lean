-- SUMMARY: The threads of the server: the accept loops, the session threads and the shutdown, one atomic operation a step.
import FpgaAcoustic.Server.SessionManager
import FpgaAcoustic.Transition.System

/-!
# Threads

Each listening channel has a thread that accepts connections, each admitted
connection has a thread that runs its session, and the main thread shuts down.
A step is one operation of one thread: on an atomic counter, or under the mutex
of the session manager.
-/

namespace Koheron

namespace Server

/-- How far the server is with a connection: the accept loop has it until it is
admitted, and after that its own thread. -/
inductive Status
  | accepted
  | admitted
  | refused
  | dropped
  | spawned
  | counted
  | created (sid : SessionID)
  | running (sid : SessionID)
  | returned (sid : SessionID)
  | deleted
  | ended
  deriving DecidableEq, Repr

structure Connection where
  type : SocketType
  status : Status
  deriving DecidableEq, Repr

structure State where
  manager : SessionManager
  /-- In the order in which they are accepted, with their numbers as descriptors. -/
  connections : List Connection
  numberOfThreads : SocketType → ℤ
  /-- The ids that `delete_all` has still to delete, once it is called. -/
  deleting : Option (List SessionID)
  exitComm : Bool

def State.initial : State where
  manager := .empty
  connections := []
  numberOfThreads _ := 0
  deleting := none
  exitComm := false

/-- The steps, those of a session thread with the number of its connection. -/
inductive Action
  | accept (type : SocketType)
  | check (c : ℕ)
  | spawn (c : ℕ)
  | count (c : ℕ)
  | create (c : ℕ)
  | enter (c : ℕ)
  | leave (c : ℕ)
  | delete (c : ℕ)
  | uncount (c : ℕ)
  | deleteAll
  | deleteNext
  | closeListeners
  deriving DecidableEq, Repr

/-- The accept loop has not finished with the connection. -/
def Status.Pending (status : Status) : Prop := status = .accepted ∨ status = .admitted

instance (status : Status) : Decidable status.Pending := inferInstanceAs (Decidable (_ ∨ _))

def State.set (s : State) (c : ℕ) (type : SocketType) (status : Status) : State :=
  { s with connections := s.connections.set c ⟨type, status⟩ }

/-- `number_of_threads++` and `number_of_threads--`. -/
def State.addThreads (s : State) (type : SocketType) (n : ℤ) : State :=
  { s with numberOfThreads :=
      Function.update s.numberOfThreads type (s.numberOfThreads type + n) }

section Step

variable (workerConnections : SocketType → ℕ)

/-- `is_max_threads`. -/
def isMaxThreads (s : State) (type : SocketType) : Bool :=
  s.numberOfThreads type ≥ workerConnections type

/-- What the accept loop decides about a connection. -/
def admission (s : State) (type : SocketType) : Status :=
  if s.exitComm then .dropped
  else if isMaxThreads workerConnections s type then .refused
  else .admitted

def step (s : State) : Action → Option State
  | .accept type =>
    -- A channel without worker connections does not listen.
    if 0 < workerConnections type ∧ s.exitComm = false ∧
        ∀ k ∈ s.connections, k.type = type → ¬ k.status.Pending then
      some { s with connections := s.connections ++ [⟨type, .accepted⟩] }
    else none
  | .check c =>
    match s.connections[c]? with
    | some ⟨type, .accepted⟩ => some (s.set c type (admission workerConnections s type))
    | _ => none
  | .spawn c =>
    match s.connections[c]? with
    | some ⟨type, .admitted⟩ => some (s.set c type .spawned)
    | _ => none
  | .count c =>
    match s.connections[c]? with
    | some ⟨type, .spawned⟩ => some ((s.set c type .counted).addThreads type 1)
    | _ => none
  | .create c =>
    match s.connections[c]? with
    | some ⟨type, .counted⟩ =>
      let (sid, manager) := s.manager.createSession type c
      some { s.set c type (.created sid) with manager }
    | _ => none
  | .enter c =>
    match s.connections[c]? with
    | some ⟨type, .created sid⟩ =>
      -- Otherwise `at` throws in `get_session`, and the process ends.
      if sid ∈ s.manager.sessionPool then some (s.set c type (.running sid)) else none
    | _ => none
  | .leave c =>
    match s.connections[c]? with
    | some ⟨type, .running sid⟩ => some (s.set c type (.returned sid))
    | _ => none
  | .delete c =>
    match s.connections[c]? with
    | some ⟨type, .returned sid⟩ =>
      some { s.set c type .deleted with manager := s.manager.deleteSession sid }
    | _ => none
  | .uncount c =>
    match s.connections[c]? with
    | some ⟨type, .deleted⟩ => some ((s.set c type .ended).addThreads type (-1))
    | _ => none
  | .deleteAll =>
    if s.deleting = none then some { s with deleting := some s.manager.getSessionIds } else none
  | .deleteNext =>
    match s.deleting with
    | some (id :: ids) =>
      some { s with manager := s.manager.deleteSession id, deleting := some ids }
    | _ => none
  | .closeListeners =>
    if s.deleting = some [] then some { s with exitComm := true } else none

/-- What the server does with a connection until its thread is inside `run`. -/
def opening (type : SocketType) (c : ℕ) : List Action :=
  [.accept type, .check c, .spawn c, .count c, .create c, .enter c]

def system : Transition.System State Action := ⟨.initial, step workerConnections⟩

end Step

/-! ## What a step does -/

/-- The moves of the thread of a connection, by the action and the two states of
the connection. -/
inductive Moves (s : State) (type : SocketType) (c : ℕ) : Action → Status → Status → State → Prop
  | spawn : Moves s type c (.spawn c) .admitted .spawned s
  | count : Moves s type c (.count c) .spawned .counted (s.addThreads type 1)
  | create : Moves s type c (.create c) .counted (.created (s.manager.createSession type c).1)
      { s with manager := (s.manager.createSession type c).2 }
  | enter {sid : SessionID} (h : sid ∈ s.manager.sessionPool) :
      Moves s type c (.enter c) (.created sid) (.running sid) s
  | leave {sid : SessionID} : Moves s type c (.leave c) (.running sid) (.returned sid) s
  | delete {sid : SessionID} : Moves s type c (.delete c) (.returned sid) .deleted
      { s with manager := s.manager.deleteSession sid }
  | uncount : Moves s type c (.uncount c) .deleted .ended (s.addThreads type (-1))

/-- A step of the accept loop, of a session thread, or of the main thread. -/
inductive Step (workerConnections : SocketType → ℕ) (s : State) : Action → State → Prop
  | accept {type : SocketType} (hexit : s.exitComm = false) :
      Step workerConnections s (.accept type)
        { s with connections := s.connections ++ [⟨type, .accepted⟩] }
  | check {c : ℕ} {type : SocketType} (h : s.connections[c]? = some ⟨type, .accepted⟩) :
      Step workerConnections s (.check c) (s.set c type (admission workerConnections s type))
  | move {a : Action} {c : ℕ} {type : SocketType} {status status' : Status} {s' : State}
      (h : s.connections[c]? = some ⟨type, status⟩) (hmove : Moves s type c a status status' s') :
      Step workerConnections s a (s'.set c type status')
  | deleteAll : Step workerConnections s .deleteAll
      { s with deleting := some s.manager.getSessionIds }
  | deleteNext {id : SessionID} {ids : List SessionID} (h : s.deleting = some (id :: ids)) :
      Step workerConnections s .deleteNext
        { s with manager := s.manager.deleteSession id, deleting := some ids }
  | closeListeners : Step workerConnections s .closeListeners { s with exitComm := true }

theorem step_cases {workerConnections : SocketType → ℕ} {s s' : State} {a : Action}
    (h : step workerConnections s a = some s') : Step workerConnections s a s' := by
  cases a with
  | accept type =>
    simp only [step, Option.ite_none_right_eq_some, Option.some.injEq] at h
    obtain ⟨⟨-, hexit, -⟩, rfl⟩ := h
    exact .accept hexit
  | check c =>
    simp only [step] at h
    split at h
    · obtain rfl := Option.some.inj h
      exact .check ‹_›
    · cases h
  | spawn c =>
    simp only [step] at h
    split at h
    · obtain rfl := Option.some.inj h
      exact .move ‹_› .spawn
    · cases h
  | count c =>
    simp only [step] at h
    split at h
    · obtain rfl := Option.some.inj h
      exact .move ‹_› .count
    · cases h
  | create c =>
    simp only [step] at h
    split at h
    · obtain rfl := Option.some.inj h
      exact .move ‹_› .create
    · cases h
  | enter c =>
    simp only [step] at h
    split at h
    · split at h
      · obtain rfl := Option.some.inj h
        exact .move ‹_› (.enter ‹_›)
      · cases h
    · cases h
  | leave c =>
    simp only [step] at h
    split at h
    · obtain rfl := Option.some.inj h
      exact .move ‹_› .leave
    · cases h
  | delete c =>
    simp only [step] at h
    split at h
    · obtain rfl := Option.some.inj h
      exact .move ‹_› .delete
    · cases h
  | uncount c =>
    simp only [step] at h
    split at h
    · obtain rfl := Option.some.inj h
      exact .move ‹_› .uncount
    · cases h
  | deleteAll =>
    simp only [step, Option.ite_none_right_eq_some, Option.some.injEq] at h
    obtain ⟨-, rfl⟩ := h
    exact .deleteAll
  | deleteNext =>
    simp only [step] at h
    split at h
    · obtain rfl := Option.some.inj h
      exact .deleteNext ‹_›
    · cases h
  | closeListeners =>
    simp only [step, Option.ite_none_right_eq_some, Option.some.injEq] at h
    obtain ⟨-, rfl⟩ := h
    exact .closeListeners

end Server

end Koheron
