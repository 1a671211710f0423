-- SUMMARY: Session lifetimes: when no session is destroyed while its thread runs it, and no thread deletes the session of another connection.
import FpgaAcoustic.Server.Threads

/-!
# Session lifetimes

A session is deleted by its thread at its end, and by `delete_all` at any time.
The second does not wait for the thread, whose own deletion then finds the id
free, or in use again for a connection that is still admitted.
-/

namespace Koheron.Server

/-- The id that the thread still knows. -/
def Status.sid : Status → Option SessionID
  | .created sid | .running sid | .returned sid => some sid
  | _ => none

/-- No session is gone while its thread is inside `run`, and what a thread is
about to delete is not the session of another connection. -/
structure State.Lives (s : State) : Prop where
  inside : ∀ (c : ℕ) (type : SocketType) (sid : SessionID),
    s.connections[c]? = some ⟨type, .running sid⟩ → s.manager.sessionPool[sid]? = some ⟨type, c⟩
  own : ∀ (c : ℕ) (type : SocketType) (sid : SessionID) (session : PooledSession),
    s.connections[c]? = some ⟨type, .returned sid⟩ →
      s.manager.sessionPool[sid]? = some session → session = ⟨type, c⟩

/-- What `delete_all` deletes is no session whose thread is inside `run`, and no
id is given out that a thread still knows. -/
def Careful (s : State) : Action → Prop
  | .deleteNext =>
    ∀ id ∈ (s.deleting.getD []).head?, ∀ k ∈ s.connections, k.status ≠ .running id
  | .create c =>
    ∀ k ∈ s.connections, k.status.sid ≠ some (s.manager.createSession k.type c).1
  | _ => True

instance (s : State) : (a : Action) → Decidable (Careful s a)
  | .deleteNext => inferInstanceAs (Decidable
      (∀ id ∈ (s.deleting.getD []).head?, ∀ k ∈ s.connections, k.status ≠ .running id))
  | .create c => inferInstanceAs (Decidable
      (∀ k ∈ s.connections, k.status.sid ≠ some (s.manager.createSession k.type c).1))
  | .accept _ | .check _ | .spawn _ | .count _ | .enter _ | .leave _ | .delete _ | .uncount _
  | .deleteAll | .closeListeners => inferInstanceAs (Decidable True)

/-! ## The invariant -/

/-- Under an id that a thread knows is its own session, or nothing while it is
not inside `run`. -/
structure State.Owned (s : State) : Prop where
  represents : ∃ p, s.manager.Represents p
  inside : ∀ (c : ℕ) (type : SocketType) (sid : SessionID),
    s.connections[c]? = some ⟨type, .running sid⟩ → s.manager.sessionPool[sid]? = some ⟨type, c⟩
  own : ∀ (c : ℕ) (type : SocketType) (status : Status) (sid : SessionID)
    (session : PooledSession), s.connections[c]? = some ⟨type, status⟩ → status.sid = some sid →
      s.manager.sessionPool[sid]? = some session → session = ⟨type, c⟩

namespace State.Owned

variable {s : State} {c : ℕ} {type : SocketType}

theorem lives (h : s.Owned) : s.Lives where
  inside := h.inside
  own c type sid session hc := h.own c type _ sid session hc rfl

theorem initial : State.initial.Owned where
  represents := ⟨_, SessionManager.represents_empty⟩
  inside c type sid hc := by simp [State.initial] at hc
  own c type status sid session hc := by simp [State.initial] at hc

theorem addThreads (h : s.Owned) (type : SocketType) (n : ℤ) : (s.addThreads type n).Owned :=
  ⟨h.represents, h.inside, h.own⟩

/-- A connection moves, and the manager stays as it is. -/
theorem set (h : s.Owned) {status : Status}
    (hinside : ∀ sid, status = .running sid → s.manager.sessionPool[sid]? = some ⟨type, c⟩)
    (hown : ∀ sid session, status.sid = some sid →
      s.manager.sessionPool[sid]? = some session → session = ⟨type, c⟩) :
    (s.set c type status).Owned where
  represents := h.represents
  inside c' type' sid hc' := by
    rw [State.set, List.getElem?_set] at hc'
    split_ifs at hc' with heq hlt
    · obtain ⟨rfl, hrunning⟩ := Connection.mk.inj (Option.some.inj hc')
      rw [← heq]
      exact hinside sid hrunning
    · exact h.inside c' type' sid hc'
  own c' type' status' sid session hc' hsid hsession := by
    rw [State.set, List.getElem?_set] at hc'
    split_ifs at hc' with heq hlt
    · obtain ⟨rfl, rfl⟩ := Connection.mk.inj (Option.some.inj hc')
      rw [← heq]
      exact hown sid session hsid hsession
    · exact h.own c' type' status' sid session hc' hsid hsession

/-- The connection moves to a state in which its thread knows no session. -/
theorem set_idle (h : s.Owned) {status : Status} (hidle : status.sid = none) :
    (s.set c type status).Owned := by
  apply h.set
  · rintro sid rfl
    cases hidle
  · intro sid session hsid
    rw [hidle] at hsid
    cases hsid

/-- The thread goes on with the session that it knows. -/
theorem set_same (h : s.Owned) {status status' : Status} {sid : SessionID}
    (hc : s.connections[c]? = some ⟨type, status⟩) (hsid : status.sid = some sid)
    (hsid' : status'.sid = some sid)
    (hinside : status' = .running sid → sid ∈ s.manager.sessionPool) :
    (s.set c type status').Owned := by
  apply h.set
  · rintro sid' rfl
    obtain rfl : sid' = sid := Option.some.inj hsid'
    obtain ⟨session, hsession⟩ := Option.isSome_iff_exists.mp
      (Std.TreeMap.mem_iff_isSome_getElem?.mp (hinside rfl))
    rw [hsession, h.own c type status sid' session hc hsid hsession]
  · intro sid' session hsid'' hsession
    obtain rfl : sid' = sid := Option.some.inj (hsid''.symm.trans hsid')
    exact h.own c type status sid' session hc hsid hsession

/-- A session is created under an id that no thread knows. -/
theorem createSession (h : s.Owned) (type : SocketType) (c : ℕ)
    (hcareful : ∀ k ∈ s.connections, k.status.sid ≠ some (s.manager.createSession type c).1) :
    { s with manager := (s.manager.createSession type c).2 : State }.Owned := by
  obtain ⟨p, hp⟩ := h.represents
  have hget := hp.getElem?_createSession type c
  refine ⟨⟨_, (hp.createSession type c).2⟩, ?_, ?_⟩
  · intro c' type' sid hc'
    exact (hp.fresh type c).kept sid _ (h.inside c' type' sid hc')
  · intro c' type' status sid session hc' hsid hsession
    have hne : sid ≠ (s.manager.createSession type c).1 := by
      rintro rfl
      exact hcareful _ (List.mem_of_getElem? hc') hsid
    rw [hget, if_neg hne] at hsession
    exact h.own c' type' status sid session hc' hsid hsession

/-- A session is deleted whose thread is not inside `run`. -/
theorem deleteSession (h : s.Owned) {id : SessionID}
    (hcareful : ∀ k ∈ s.connections, k.status ≠ .running id) :
    { s with manager := s.manager.deleteSession id : State }.Owned := by
  obtain ⟨p, hp⟩ := h.represents
  have hget := SessionManager.getElem?_deleteSession s.manager id
  refine ⟨hp.deleteSession id, ?_, ?_⟩
  · intro c' type' sid hc'
    have hne : sid ≠ id := by
      rintro rfl
      exact hcareful _ (List.mem_of_getElem? hc') rfl
    rw [hget, if_neg hne]
    exact h.inside c' type' sid hc'
  · intro c' type' status sid session hc' hsid hsession
    rw [hget] at hsession
    split_ifs at hsession
    exact h.own c' type' status sid session hc' hsid hsession

/-- What a thread is about to delete is not the session that another one runs. -/
theorem not_running_of_returned (h : s.Owned) {sid : SessionID}
    (hc : s.connections[c]? = some ⟨type, .returned sid⟩) :
    ∀ k ∈ s.connections, k.status ≠ .running sid := by
  intro k hk hrunning
  obtain ⟨c', hc'⟩ := List.mem_iff_getElem?.mp hk
  obtain ⟨type', status'⟩ := k
  obtain rfl : status' = .running sid := hrunning
  have hsame := h.own c type _ sid _ hc rfl (h.inside c' type' sid hc')
  obtain rfl : c' = c := Int.ofNat_inj.mp (PooledSession.mk.inj hsame).2
  rw [hc] at hc'
  cases hc'

theorem move (h : s.Owned) {a : Action} {status status' : Status} {s' : State}
    (hc : s.connections[c]? = some ⟨type, status⟩) (hcareful : Careful s a)
    (hmove : Moves s type c a status status' s') : (s'.set c type status').Owned := by
  cases hmove with
  | spawn => exact h.set_idle rfl
  | count => exact (h.addThreads type 1).set_idle rfl
  | create =>
    obtain ⟨p, hp⟩ := h.represents
    have hadded := (hp.fresh type c).added
    refine (h.createSession type c hcareful).set ?_ ?_
    · intro sid hrunning
      cases hrunning
    · intro sid session hsid hsession
      obtain rfl := Option.some.inj hsid
      exact (Option.some.inj (hadded.symm.trans hsession)).symm
  | enter hmem => exact h.set_same hc rfl rfl fun _ => hmem
  | leave => exact h.set_same hc rfl rfl fun hrunning => by cases hrunning
  | delete =>
    exact (h.deleteSession (h.not_running_of_returned hc)).set_idle rfl
  | uncount => exact (h.addThreads type (-1)).set_idle rfl

theorem step {workerConnections : SocketType → ℕ} {a : Action} {s' : State} (h : s.Owned)
    (hcareful : Careful s a) (hstep : Step workerConnections s a s') : s'.Owned := by
  cases hstep with
  | @accept type hexit =>
    have hget : ∀ (c : ℕ) (k : Connection), k.status ≠ .accepted →
        (s.connections ++ [⟨type, .accepted⟩])[c]? = some k → s.connections[c]? = some k := by
      intro c k hk hc
      rw [List.getElem?_append] at hc
      split_ifs at hc with hlt
      · exact hc
      · obtain rfl := List.mem_singleton.mp (List.mem_of_getElem? hc)
        exact absurd rfl hk
    refine ⟨h.represents, ?_, ?_⟩
    · intro c type sid hc
      exact h.inside c type sid (hget c _ (by rintro ⟨⟩) hc)
    · intro c type status sid session hc hsid
      refine h.own c type status sid session (hget c _ ?_ hc) hsid
      rintro rfl
      cases hsid
  | check hc =>
    apply h.set_idle
    unfold admission
    split_ifs <;> rfl
  | move hc hmove => exact h.move hc hcareful hmove
  | deleteAll => exact ⟨h.represents, h.inside, h.own⟩
  | deleteNext hids =>
    have hcareful' : ∀ k ∈ s.connections, k.status ≠ .running _ :=
      hcareful _ (by rw [hids]; rfl)
    have hdeleted := h.deleteSession hcareful'
    exact ⟨hdeleted.represents, hdeleted.inside, hdeleted.own⟩
  | closeListeners => exact ⟨h.represents, h.inside, h.own⟩

end State.Owned

section Runs

variable {workerConnections : SocketType → ℕ}

/-- In a run whose steps are careful, sessions live as long as they are used. -/
theorem lives_of_careful {s : State} (h : (system workerConnections).Reaches Careful s) :
    s.Lives := by
  suffices howned : s.Owned from howned.lives
  refine h.invariant State.Owned.initial ?_
  intro s a s' howned hcareful hstep
  exact howned.step hcareful (step_cases hstep)

end Runs

/-! ## Two runs -/

/-- Channels with two connections each. -/
def two : SocketType → ℕ := fun _ => 2

/-- One session that ends before the shutdown, and one that has left `run` when
it is deleted. -/
def carefulRun : List Action :=
  opening .tcp 0 ++ [.leave 0, .delete 0] ++ opening .websock 1 ++
    [.leave 1, .deleteAll, .deleteNext, .closeListeners, .delete 1, .uncount 1]

theorem carefulRun_lives :
    ∃ s, (system two).runFrom .initial carefulRun = some s ∧ s.exitComm = true ∧ s.Lives := by
  have hallowed : (system two).AllowedFrom Careful .initial carefulRun := by decide +kernel
  exact ⟨_, rfl, rfl, @lives_of_careful two _
    (Transition.System.Reaches.init.runFrom hallowed rfl)⟩

/-- The shutdown deletes a session inside `run`. -/
def shutdownRun : List Action := opening .tcp 0 ++ [.deleteAll, .deleteNext]

/-- Another connection is given the id, and the first thread deletes it then. -/
def lateRun : List Action := shutdownRun ++ opening .websock 1 ++ [.leave 0]

theorem shutdownRun_not_lives :
    (∃ s, (system two).runFrom .initial shutdownRun = some s ∧
      s.connections = [⟨.tcp, .running 0⟩] ∧ s.manager.sessionPool[(0 : ℤ)]? = none ∧ ¬ s.Lives) ∧
    ∃ s, (system two).runFrom .initial lateRun = some s ∧
      s.connections = [⟨.tcp, .returned 0⟩, ⟨.websock, .running 0⟩] ∧
      s.manager.sessionPool[(0 : ℤ)]? = some ⟨.websock, 1⟩ ∧ ¬ s.Lives := by
  refine ⟨⟨_, rfl, rfl, rfl, ?_⟩, ⟨_, rfl, rfl, rfl, ?_⟩⟩
  · intro hlives
    have hinside := hlives.inside 0 .tcp 0 rfl
    cases hinside
  · intro hlives
    have hown := hlives.own 0 .tcp 0 ⟨.websock, 1⟩ rfl rfl
    cases hown

end Koheron.Server
