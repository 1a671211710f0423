-- SUMMARY: Admission control: when no more sessions run than a channel may have, and what becomes of the connections that are turned away.
import FpgaAcoustic.Server.Threads

/-!
# Admission

The accept loop compares the number of threads with the limit, but a thread
adds itself to that number only when it starts to run. A connection that is
turned away is forgotten, with its descriptor open.
-/

namespace Koheron.Server

/-- The connection is admitted, and its thread has not left `run`. -/
def Status.unfinished : Status → Bool
  | .admitted | .spawned | .counted | .created _ | .running _ => true
  | _ => false

def Status.isRunning : Status → Bool
  | .running _ => true
  | _ => false

/-- The connections of a channel whose sessions run or have still to run. -/
def State.unfinished (s : State) (type : SocketType) : ℕ :=
  s.connections.countP fun k => k.type = type ∧ k.status.unfinished

/-- The connections of a channel whose sessions run. -/
def State.running (s : State) (type : SocketType) : ℕ :=
  s.connections.countP fun k => k.type = type ∧ k.status.isRunning

/-- No more sessions run than may, and the descriptors of the connections that
were turned away are closed. -/
structure State.Admits (workerConnections : SocketType → ℕ) (s : State) : Prop where
  bounded : ∀ type, s.running type ≤ workerConnections type
  closed : ∀ (c : ℕ) (type : SocketType),
    s.connections[c]? = some ⟨type, .refused⟩ → (c : ℤ) ∈ s.manager.closed

/-- The limit is tested only while neither the number of threads nor the number
of unfinished connections has reached it. -/
def Roomy (workerConnections : SocketType → ℕ) (s : State) : Action → Prop
  | .check c => ∀ k ∈ s.connections[c]?, s.exitComm = false →
      s.numberOfThreads k.type < workerConnections k.type ∧
        s.unfinished k.type < workerConnections k.type
  | _ => True

instance (workerConnections : SocketType → ℕ) (s : State) :
    (a : Action) → Decidable (Roomy workerConnections s a)
  | .check c => inferInstanceAs (Decidable (∀ k ∈ s.connections[c]?, s.exitComm = false →
      s.numberOfThreads k.type < workerConnections k.type ∧
        s.unfinished k.type < workerConnections k.type))
  | .accept _ | .spawn _ | .count _ | .create _ | .enter _ | .leave _ | .delete _ | .uncount _
  | .deleteAll | .deleteNext | .closeListeners => inferInstanceAs (Decidable True)

/-! ## Counting -/

section Count

variable {s : State} {c : ℕ} {type : SocketType} {status status' : Status}

theorem running_le_unfinished (s : State) (type : SocketType) :
    s.running type ≤ s.unfinished type := by
  apply List.countP_mono_left
  rintro ⟨type', status⟩ -
  cases status <;> simp [Status.isRunning, Status.unfinished]

theorem countP_set_le {α : Type} (p : α → Bool) {l : List α} {i : ℕ} {old : α} (a : α)
    (h : l[i]? = some old) :
    (l.set i a).countP p ≤ l.countP p + if p a ∧ ¬ p old then 1 else 0 := by
  obtain ⟨hlt, rfl⟩ := List.getElem?_eq_some_iff.mp h
  rw [List.countP_set hlt]
  cases hold : p l[i] with
  | false => simp
  | true =>
    have hpos : 0 < l.countP p := List.countP_pos_iff.mpr ⟨l[i], List.getElem_mem hlt, hold⟩
    cases p a with
    | false => simp
    | true => simp only [if_true]; omega

/-- One more connection is unfinished at most, and none if the connection that
moves was unfinished before. -/
theorem unfinished_set_le (hc : s.connections[c]? = some ⟨type, status⟩) (other : SocketType) :
    (s.set c type status').unfinished other ≤ s.unfinished other +
      if type = other ∧ status'.unfinished ∧ ¬ status.unfinished then 1 else 0 := by
  refine (countP_set_le _ ⟨type, status'⟩ hc).trans_eq (congrArg (s.unfinished other + ·) ?_)
  by_cases htype : type = other
  · simp [htype]
  · simp [htype]

theorem Moves.unfinished {a : Action} {s' : State} (h : Moves s type c a status status' s') :
    status'.unfinished → status.unfinished := by
  cases h <;> simp [Status.unfinished]

theorem Moves.connections {a : Action} {s' : State} (h : Moves s type c a status status' s') :
    s'.connections = s.connections := by
  cases h <;> rfl

theorem Moves.not_refused {a : Action} {s' : State} (h : Moves s type c a status status' s') :
    status' ≠ .refused := by
  cases h <;> simp

end Count

/-! ## The invariant -/

/-- There is room for every connection that is not finished, and none was turned away. -/
structure State.Roomy (workerConnections : SocketType → ℕ) (s : State) : Prop where
  unfinished : ∀ type, s.unfinished type ≤ workerConnections type
  refused : ∀ k ∈ s.connections, k.status ≠ .refused

namespace State.Roomy

variable {workerConnections : SocketType → ℕ} {s : State}

theorem initial : State.initial.Roomy workerConnections where
  unfinished _ := Nat.zero_le _
  refused _ hk := absurd hk List.not_mem_nil

theorem admits (h : s.Roomy workerConnections) : s.Admits workerConnections where
  bounded type := (running_le_unfinished s type).trans (h.unfinished type)
  closed _ _ hc := absurd rfl (h.refused _ (List.mem_of_getElem? hc))

theorem set (h : s.Roomy workerConnections) {c : ℕ} {type : SocketType} {status status' : Status}
    (hc : s.connections[c]? = some ⟨type, status⟩) (hrefused : status' ≠ .refused)
    (hroom : status'.unfinished → ¬ status.unfinished →
      s.unfinished type < workerConnections type) :
    (s.set c type status').Roomy workerConnections where
  unfinished other := by
    refine (unfinished_set_le hc other).trans ?_
    split_ifs with hmore
    · obtain ⟨rfl, hnew, hold⟩ := hmore
      exact hroom hnew hold
    · exact h.unfinished other
  refused k hk := by
    rcases List.mem_or_eq_of_mem_set hk with hmem | rfl
    · exact h.refused k hmem
    · exact hrefused

theorem step {a : Action} {s' : State} (h : s.Roomy workerConnections)
    (hroomy : Server.Roomy workerConnections s a) (hstep : Step workerConnections s a s') :
    s'.Roomy workerConnections := by
  cases hstep with
  | @accept type hexit =>
    refine ⟨?_, ?_⟩
    · intro other
      have hcount := h.unfinished other
      simpa [State.unfinished, Status.unfinished, List.countP_append] using hcount
    · intro k hk
      rcases List.mem_append.mp hk with hmem | hmem
      · exact h.refused k hmem
      · obtain rfl := List.mem_singleton.mp hmem
        rintro ⟨⟩
  | @check c type hc =>
    have hroom := hroomy _ hc
    apply h.set hc
    · unfold admission isMaxThreads
      split_ifs with hexit hmax
      · rintro ⟨⟩
      · have hlt := (hroom (Bool.not_eq_true _ ▸ hexit)).1
        exact absurd (of_decide_eq_true hmax) (not_le.mpr hlt)
      · rintro ⟨⟩
    · intro hadmitted _
      unfold admission at hadmitted
      split_ifs at hadmitted with hexit hmax
      · cases hadmitted
      · cases hadmitted
      · exact (hroom (Bool.not_eq_true _ ▸ hexit)).2
  | move hc hmove =>
    have hsame := hmove.connections
    have hroomy' : State.Roomy workerConnections _ :=
      ⟨fun type => by rw [State.unfinished, hsame]; exact h.unfinished type,
        fun k hk => h.refused k (hsame ▸ hk)⟩
    refine hroomy'.set (hsame ▸ hc) hmove.not_refused ?_
    intro hnew hold
    exact absurd (hmove.unfinished hnew) hold
  | deleteAll => exact ⟨h.unfinished, h.refused⟩
  | deleteNext => exact ⟨h.unfinished, h.refused⟩
  | closeListeners => exact ⟨h.unfinished, h.refused⟩

end State.Roomy

/-- In a run in which the limit is tested only while there is room, no more
sessions run than may, and every connection is admitted. -/
theorem admits_of_roomy {workerConnections : SocketType → ℕ} {s : State}
    (h : (system workerConnections).Reaches (Roomy workerConnections) s) :
    s.Admits workerConnections := by
  suffices hroomy : s.Roomy workerConnections from hroomy.admits
  refine h.invariant State.Roomy.initial ?_
  intro s a s' hs hallowed hstep
  exact hs.step hallowed (step_cases hstep)

/-! ## Connections that are turned away -/

/-- The connection has a thread of its own, or had one. -/
def Status.hasThread : Status → Bool
  | .accepted | .admitted | .refused | .dropped => false
  | _ => true

/-- The descriptor of a connection that has a thread. -/
def Threaded (connections : List Connection) (fd : ℤ) : Prop :=
  ∃ (c : ℕ) (k : Connection), fd = c ∧ connections[c]? = some k ∧ k.status.hasThread

/-- The manager knows only connections that have a thread. -/
structure State.Known (s : State) : Prop where
  closed : ∀ fd ∈ s.manager.closed, Threaded s.connections fd
  pool : ∀ (sid : SessionID) (session : PooledSession),
    s.manager.sessionPool[sid]? = some session → Threaded s.connections session.commFd
  represents : ∃ p, s.manager.Represents p

theorem Threaded.set {connections : List Connection} {fd : ℤ} (h : Threaded connections fd)
    {c : ℕ} {k k' : Connection} (hc : connections[c]? = some k)
    (hthread : k.status.hasThread → k'.status.hasThread) : Threaded (connections.set c k') fd := by
  obtain ⟨c', k₀, rfl, hc', hk₀⟩ := h
  rcases eq_or_ne c c' with rfl | hne
  · obtain rfl : k = k₀ := Option.some.inj (hc.symm.trans hc')
    obtain ⟨hlt, -⟩ := List.getElem?_eq_some_iff.mp hc
    exact ⟨c, k', rfl, List.getElem?_set_self hlt, hthread hk₀⟩
  · exact ⟨c', k₀, rfl, (List.getElem?_set_ne hne).trans hc', hk₀⟩

theorem mem_closed_deleteSession {m : SessionManager} {id : SessionID} {fd : ℤ}
    (h : fd ∈ (m.deleteSession id).closed) :
    fd ∈ m.closed ∨ ∃ session, m.sessionPool[id]? = some session ∧ session.commFd = fd := by
  by_cases hid : id ∈ m.sessionPool
  · rw [SessionManager.deleteSession_of_mem hid] at h
    rcases List.mem_append.mp h with hmem | hmem
    · right
      exact Option.map_eq_some_iff.mp (Option.mem_toList.mp hmem)
    · exact .inl hmem
  · rw [SessionManager.deleteSession_of_notMem hid] at h
    exact .inl h

namespace State.Known

variable {s : State}

theorem initial : State.initial.Known where
  closed _ h := absurd h List.not_mem_nil
  pool sid session h := by simp [State.initial, SessionManager.empty] at h
  represents := ⟨_, SessionManager.represents_empty⟩

theorem set (h : s.Known) {c : ℕ} {type : SocketType} {status status' : Status}
    (hc : s.connections[c]? = some ⟨type, status⟩)
    (hthread : status.hasThread → status'.hasThread) : (s.set c type status').Known where
  closed fd hfd := (h.closed fd hfd).set hc hthread
  pool sid session hsession := (h.pool sid session hsession).set hc hthread
  represents := h.represents

theorem addThreads (h : s.Known) (type : SocketType) (n : ℤ) : (s.addThreads type n).Known :=
  ⟨h.closed, h.pool, h.represents⟩

theorem deleteSession (h : s.Known) (id : SessionID) :
    { s with manager := s.manager.deleteSession id : State }.Known where
  closed fd hfd := by
    rcases mem_closed_deleteSession hfd with hmem | ⟨session, hsession, rfl⟩
    · exact h.closed fd hmem
    · exact h.pool id session hsession
  pool sid session hsession := by
    rw [SessionManager.getElem?_deleteSession] at hsession
    split_ifs at hsession
    exact h.pool sid session hsession
  represents := by
    obtain ⟨p, hp⟩ := h.represents
    exact hp.deleteSession id

theorem step {workerConnections : SocketType → ℕ} {a : Action} {s' : State} (h : s.Known)
    (hstep : Step workerConnections s a s') : s'.Known := by
  cases hstep with
  | accept hexit =>
    have happend : ∀ {fd : ℤ} {k : Connection}, Threaded s.connections fd →
        Threaded (s.connections ++ [k]) fd := by
      rintro fd k ⟨c, k₀, rfl, hc, hk₀⟩
      obtain ⟨hlt, -⟩ := List.getElem?_eq_some_iff.mp hc
      exact ⟨c, k₀, rfl, (List.getElem?_append_left hlt).trans hc, hk₀⟩
    exact ⟨fun fd hfd => happend (h.closed fd hfd),
      fun sid session hsession => happend (h.pool sid session hsession), h.represents⟩
  | check hc => exact h.set hc (fun hthread => by cases hthread)
  | @move _ c type status status' s₁ hc hmove =>
    cases hmove with
    | spawn | leave => exact h.set hc (fun _ => rfl)
    | enter hmem => exact h.set hc (fun _ => rfl)
    | count => exact (h.addThreads type 1).set hc (fun _ => rfl)
    | uncount => exact (h.addThreads type (-1)).set hc (fun _ => rfl)
    | create =>
      obtain ⟨p, hp⟩ := h.represents
      have hset := @set s h c type _ (.created (s.manager.createSession type c).1) hc (fun _ => rfl)
      refine ⟨hset.closed, ?_, ⟨_, (hp.createSession type c).2⟩⟩
      intro sid session hsession
      have hget := (hp.getElem?_createSession type c sid).symm.trans hsession
      split_ifs at hget with hnew
      · obtain rfl := Option.some.inj hget
        obtain ⟨hlt, -⟩ := List.getElem?_eq_some_iff.mp hc
        exact ⟨c, _, rfl, List.getElem?_set_self hlt, rfl⟩
      · exact hset.pool sid session hget
    | delete => exact (h.deleteSession _).set hc (fun _ => rfl)
  | deleteAll => exact ⟨h.closed, h.pool, h.represents⟩
  | @deleteNext id ids hids =>
    have hdeleted := h.deleteSession id
    exact ⟨hdeleted.closed, hdeleted.pool, hdeleted.represents⟩
  | closeListeners => exact ⟨h.closed, h.pool, h.represents⟩

end State.Known

/-- In no run whatever is the descriptor of a connection closed that was turned away. -/
theorem refused_not_closed {workerConnections : SocketType → ℕ} {s : State}
    (h : (system workerConnections).Reaches (fun _ _ => True) s) {c : ℕ} {type : SocketType}
    (hc : s.connections[c]? = some ⟨type, .refused⟩) : (c : ℤ) ∉ s.manager.closed := by
  have hknown : s.Known :=
    h.invariant State.Known.initial fun s a s' hs _ hstep => hs.step (step_cases hstep)
  intro hmem
  obtain ⟨c', k, heq, hc', hk⟩ := hknown.closed _ hmem
  obtain rfl : c = c' := Int.ofNat_inj.mp heq
  obtain rfl := Option.some.inj (hc.symm.trans hc')
  cases hk

/-! ## Three runs -/

/-- Channels with one connection each. -/
def one : SocketType → ℕ := fun _ => 1

/-- The second connection comes after the first session has ended. -/
def roomyRun : List Action :=
  opening .tcp 0 ++ opening .websock 1 ++ [.leave 0, .delete 0, .uncount 0] ++ opening .tcp 2

theorem roomyRun_admits :
    ∃ s, (system one).runFrom .initial roomyRun = some s ∧ s.running .tcp = 1 ∧ s.Admits one := by
  have hallowed : (system one).AllowedFrom (Roomy one) .initial roomyRun := by decide +kernel
  exact ⟨_, rfl, rfl, admits_of_roomy (Transition.System.Reaches.init.runFrom hallowed rfl)⟩

/-- Two connections are admitted before the thread of the first has started. -/
def racingRun : List Action :=
  [.accept .tcp, .check 0, .spawn 0, .accept .tcp, .check 1, .spawn 1,
    .count 0, .create 0, .enter 0, .count 1, .create 1, .enter 1]

/-- The limit is reached when the second connection comes. -/
def fullRun : List Action := opening .tcp 0 ++ [.accept .tcp, .check 1]

theorem racingRun_not_admits :
    (∃ s, (system one).runFrom .initial racingRun = some s ∧ s.running .tcp = 2 ∧
      ¬ s.Admits one) ∧
    ∃ s, (system one).runFrom .initial fullRun = some s ∧
      s.connections = [⟨.tcp, .running 0⟩, ⟨.tcp, .refused⟩] ∧ s.manager.closed = [] ∧
      ¬ s.Admits one := by
  refine ⟨⟨_, rfl, rfl, ?_⟩, ⟨_, rfl, rfl, rfl, ?_⟩⟩
  · intro hadmits
    exact absurd (hadmits.bounded .tcp) (by decide +kernel)
  · intro hadmits
    exact absurd (hadmits.closed 1 .tcp rfl) List.not_mem_nil

end Koheron.Server
