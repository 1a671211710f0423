-- SUMMARY: The calls of `start_beamforming`, the threads that they spawn and the destructor, and the runs in which no two threads beamform at once.
import FpgaAcoustic.Transition.System
import Mathlib.Data.List.Basic

/-!
# Beamforming threads

A call of `start_beamforming` tests a flag that only the new thread sets. The
calls exclude each other: the first is that of the constructor, and the others
hold the driver mutex. The threads run at any time between their operations,
and the destructor, which does not take the mutex, does so too.

The operations of a round of `beamf_thread` are left out. They use neither the
flag nor the thread object.
-/

namespace Beamforming

open Transition

/-! ## The object and its threads -/

/-- How far a thread is: it has not begun, it is before the store of the flag,
it is in the loop, or it has returned. -/
inductive ThreadState
  | spawned
  | entered
  | looping
  | finished
  deriving DecidableEq, Repr

/-- The thread is in `beamf_thread`. -/
def ThreadState.inside : ThreadState → Bool
  | .entered | .looping => true
  | .spawned | .finished => false

/-- The next operation of a call of `start_beamforming`. -/
inductive Stage
  | test
  | spawn
  | detach
  deriving DecidableEq, Repr

/-- In `stopping` the destructor has cleared the flag. A `std::terminate` ends
the process. -/
inductive Object
  | constructing
  | alive
  | stopping
  | destroyed
  | terminated
  deriving DecidableEq, Repr

structure State where
  beamformingStarted : Bool
  /-- The thread that `beamforming_thread` stands for, if it is joinable. -/
  beamformingThread : Option ℕ
  threads : List ThreadState
  caller : Option Stage
  object : Object
  deriving DecidableEq, Repr

namespace State

/-- The constructor has called `start_beamforming`. -/
def initial : State where
  beamformingStarted := false
  beamformingThread := none
  threads := []
  caller := some .test
  object := .constructing

/-- A call returns. The first one ends the constructor. -/
def leave (s : State) : State :=
  { s with
    caller := none
    object := if s.object = .constructing then .alive else s.object }

def terminate (s : State) : State := { s with object := .terminated }

/-- A new thread, for which the thread object stands. -/
def attach (s : State) : State :=
  { s with
    threads := s.threads ++ [.spawned]
    beamformingThread := some s.threads.length
    caller := some .detach }

end State

/-- The steps, those of a thread with its number. -/
inductive Action
  | call
  | test
  | spawn
  | detach
  | enter (i : ℕ)
  | store (i : ℕ)
  | loop (i : ℕ)
  | destroy
  | join
  deriving DecidableEq, Repr

def test (s : State) : State :=
  if s.beamformingStarted then s.leave else { s with caller := some .spawn }

/-- To assign to a thread object that is joinable terminates. -/
def spawn (s : State) : State :=
  match s.beamformingThread with
  | some _ => s.terminate
  | none => s.attach

/-- To detach or join a thread object that is not joinable throws. The operation
of the driver does not catch it, and the destructor must not throw. -/
def detach (s : State) : State :=
  match s.beamformingThread with
  | none => s.terminate
  | some _ => { s with beamformingThread := none }.leave

/-- `join` waits for the thread to return. -/
def join (s : State) : Option State :=
  match s.beamformingThread with
  | none => some s.terminate
  | some i =>
    if s.threads[i]? = some .finished then
      some { s with beamformingThread := none, object := .destroyed }
    else none

def act (s : State) : Action → Option State
  | .call => if s.caller = none then some { s with caller := some .test } else none
  | .test => if s.caller = some .test then some (test s) else none
  | .spawn => if s.caller = some .spawn then some (spawn s) else none
  | .detach => if s.caller = some .detach then some (detach s) else none
  | .enter i =>
    if s.threads[i]? = some .spawned then some { s with threads := s.threads.set i .entered }
    else none
  | .store i =>
    if s.threads[i]? = some .entered then
      some { s with threads := s.threads.set i .looping, beamformingStarted := true }
    else none
  | .loop i =>
    if s.threads[i]? = some .looping then
      some (if s.beamformingStarted then s else { s with threads := s.threads.set i .finished })
    else none
  | .destroy =>
    if s.object = .alive then some { s with object := .stopping, beamformingStarted := false }
    else none
  | .join => if s.object = .stopping then join s else none

/-- Nothing happens after the end of the object. -/
def step (s : State) (a : Action) : Option State :=
  if s.object = .destroyed ∨ s.object = .terminated then none else act s a

def sesenta : System State Action where
  init := .initial
  step := step

/-! ## Uniqueness -/

namespace State

def Inside (s : State) (i : ℕ) : Prop := ∃ t, s.threads[i]? = some t ∧ t.inside = true

/-- The thread has not returned. -/
def Unfinished (s : State) (i : ℕ) : Prop := ∃ t, s.threads[i]? = some t ∧ t ≠ .finished

/-- At most one thread is in `beamf_thread`, and none is left where the destructor
has returned. -/
structure Unique (s : State) : Prop where
  inside : ∀ i j, s.Inside i → s.Inside j → i = j
  destroyed : s.object = .destroyed → ∀ i, ¬ s.Unfinished i

theorem Inside.unfinished {s : State} {i : ℕ} (h : s.Inside i) : s.Unfinished i := by
  obtain ⟨t, ht, hinside⟩ := h
  refine ⟨t, ht, ?_⟩
  rintro rfl
  contradiction

theorem forall_not_unfinished_iff {s : State} :
    (∀ i, ¬ s.Unfinished i) ↔ ∀ t ∈ s.threads, t = .finished := by
  simp only [Unfinished, not_exists, not_and, not_not]
  constructor
  · intro h t ht
    obtain ⟨i, hi⟩ := List.mem_iff_getElem?.mp ht
    exact h i t hi
  · intro h i t ht
    exact h t (List.mem_of_getElem? ht)

end State

/-- The flag is tested only while it is set, or while no thread is left. -/
def Timely (s : State) : Action → Prop
  | .test => s.beamformingStarted = true ∨ ∀ t ∈ s.threads, t = .finished
  | _ => True

instance (s : State) : (a : Action) → Decidable (Timely s a)
  | .test => inferInstanceAs (Decidable (_ ∨ _))
  | .call | .spawn | .detach | .enter _ | .store _ | .loop _ | .destroy | .join =>
    inferInstanceAs (Decidable True)

/-! ## Steps -/

/-- All that a step can do. -/
inductive Acts (s : State) : Action → State → Prop
  | call : s.caller = none → Acts s .call { s with caller := some .test }
  | skip : s.caller = some .test → s.beamformingStarted = true → Acts s .test s.leave
  | pass : s.caller = some .test → s.beamformingStarted = false →
      Acts s .test { s with caller := some .spawn }
  | spawn : s.caller = some .spawn → s.beamformingThread = none →
      Acts s .spawn s.attach
  | detach : s.caller = some .detach →
      Acts s .detach { s with beamformingThread := none }.leave
  | move {i : ℕ} {a : Action} {t t' : ThreadState} {b : Bool} : s.threads[i]? = some t →
      t ≠ .finished →
      Acts s a { s with threads := s.threads.set i t', beamformingStarted := b }
  | again {i : ℕ} : Acts s (.loop i) s
  | destroy : s.object = .alive →
      Acts s .destroy { s with object := .stopping, beamformingStarted := false }
  | join {i : ℕ} : s.beamformingThread = some i → s.threads[i]? = some .finished →
      Acts s .join { s with beamformingThread := none, object := .destroyed }
  | terminate {a : Action} : Acts s a s.terminate

section Steps

variable {s s' : State} {a : Action}

theorem acts_of_step (h : step s a = some s') :
    s.object ≠ .destroyed ∧ s.object ≠ .terminated ∧ Acts s a s' := by
  rw [step, Option.ite_none_left_eq_some, not_or] at h
  obtain ⟨⟨hdestroyed, hterminated⟩, hact⟩ := h
  refine ⟨hdestroyed, hterminated, ?_⟩
  cases a with
  | call =>
    obtain ⟨hcaller, hs⟩ := Option.ite_none_right_eq_some.mp hact
    exact Option.some.inj hs ▸ .call hcaller
  | test =>
    obtain ⟨hcaller, hs⟩ := Option.ite_none_right_eq_some.mp hact
    rw [← Option.some.inj hs]
    unfold test
    split_ifs with hstarted
    · exact .skip hcaller hstarted
    · exact .pass hcaller (Bool.eq_false_iff.mpr hstarted)
  | spawn =>
    obtain ⟨hcaller, hs⟩ := Option.ite_none_right_eq_some.mp hact
    rw [← Option.some.inj hs]
    unfold spawn
    split
    · exact .terminate
    · exact .spawn hcaller ‹_›
  | detach =>
    obtain ⟨hcaller, hs⟩ := Option.ite_none_right_eq_some.mp hact
    rw [← Option.some.inj hs]
    unfold detach
    split
    · exact .terminate
    · exact .detach hcaller
  | enter i | store i =>
    obtain ⟨ht, hs⟩ := Option.ite_none_right_eq_some.mp hact
    exact Option.some.inj hs ▸ .move ht (by decide)
  | loop i =>
    obtain ⟨ht, hs⟩ := Option.ite_none_right_eq_some.mp hact
    rw [← Option.some.inj hs]
    split_ifs
    · exact .again
    · exact .move ht (by decide)
  | destroy =>
    obtain ⟨hobject, hs⟩ := Option.ite_none_right_eq_some.mp hact
    exact Option.some.inj hs ▸ .destroy hobject
  | join =>
    obtain ⟨hobject, hs⟩ := Option.ite_none_right_eq_some.mp hact
    unfold join at hs
    split at hs
    · exact Option.some.inj hs ▸ .terminate
    · obtain ⟨ht, hs⟩ := Option.ite_none_right_eq_some.mp hs
      exact Option.some.inj hs ▸ .join ‹_› ht

/-! ### The thread object -/

/-- The thread object is joinable only within a call, before the thread is detached. -/
def Attached (s : State) : Prop := s.beamformingThread ≠ none → s.caller = some .detach

theorem Attached.step (h : Attached s) (hs : step s a = some s') : Attached s' := by
  obtain ⟨-, -, hacts⟩ := acts_of_step hs
  have hnone : s.caller ≠ some .detach → s.beamformingThread = none :=
    fun hcaller => not_not.mp (mt h hcaller)
  cases hacts with
  | call hcaller =>
    intro hthread
    exact absurd (hnone (by rw [hcaller]; decide)) hthread
  | skip hcaller =>
    intro hthread
    exact absurd (hnone (by rw [hcaller]; decide)) hthread
  | pass hcaller =>
    intro hthread
    exact absurd (hnone (by rw [hcaller]; decide)) hthread
  | spawn => exact fun _ => rfl
  | detach | join => exact fun hthread => absurd rfl hthread
  | move | again | destroy | terminate => exact h

theorem attached_of_reaches {Allowed : State → Action → Prop} (h : sesenta.Reaches Allowed s) :
    Attached s :=
  h.invariant (fun hthread => absurd rfl hthread) fun _ _ _ hs _ hstep => hs.step hstep

/-- Between calls the thread object stands for no thread, and the destructor does not return. -/
theorem join_terminates {Allowed : State → Action → Prop} (h : sesenta.Reaches Allowed s)
    (hcaller : s.caller ≠ some .detach) : join s = some s.terminate := by
  have hnone := not_not.mp (mt (attached_of_reaches h) hcaller)
  rw [join, hnone]

/-! ### The threads -/

theorem unfinished_set {i j : ℕ} {t t' : ThreadState} {b : Bool} (ht : s.threads[i]? = some t)
    (hne : t ≠ .finished)
    (h : State.Unfinished { s with threads := s.threads.set i t', beamformingStarted := b } j) :
    s.Unfinished j := by
  by_cases hij : i = j
  · subst hij
    exact ⟨t, ht, hne⟩
  · obtain ⟨u, hu, hfin⟩ := h
    rw [List.getElem?_set_ne hij] at hu
    exact ⟨u, hu, hfin⟩

/-- No more than one thread is left. None is while a call is about to spawn one, and none but
that which the thread object stands for. -/
structure Single (s : State) : Prop where
  single : ∀ i j, s.Unfinished i → s.Unfinished j → i = j
  ready : s.caller = some .spawn → ∀ i, ¬ s.Unfinished i
  attached : ∀ i, s.beamformingThread = some i → ∀ j, s.Unfinished j → j = i
  destroyed : s.object = .destroyed → ∀ i, ¬ s.Unfinished i

theorem Single.unique (h : Single s) : s.Unique where
  inside i j hi hj := h.single i j hi.unfinished hj.unfinished
  destroyed := h.destroyed

theorem single_initial : Single .initial := by
  have hnone : ∀ i, ¬ State.initial.Unfinished i := by
    rintro i ⟨t, ht, -⟩
    simp [State.initial] at ht
  exact ⟨fun i _ hi => absurd hi (hnone i), fun _ => hnone, fun _ _ j hj => absurd hj (hnone j),
    fun _ => hnone⟩

/-- What leaves the threads alone. -/
theorem Single.congr (h : Single s) (hthreads : s'.threads = s.threads)
    (hready : s'.caller = some .spawn → ∀ i, ¬ s.Unfinished i)
    (hthread : ∀ i, s'.beamformingThread = some i → s.beamformingThread = some i)
    (hdestroyed : s'.object = .destroyed → ∀ i, ¬ s.Unfinished i) : Single s' := by
  have hunfinished : ∀ i, s'.Unfinished i ↔ s.Unfinished i := by
    intro i
    rw [State.Unfinished, State.Unfinished, hthreads]
  simp only [← hunfinished] at hready hdestroyed
  refine ⟨?_, hready, ?_, hdestroyed⟩
  · intro i j hi hj
    exact h.single i j ((hunfinished i).mp hi) ((hunfinished j).mp hj)
  · intro i hi j hj
    exact h.attached i (hthread i hi) j ((hunfinished j).mp hj)

/-- Of the threads, only one that is left can move. -/
theorem Single.move (h : Single s) {i : ℕ} {t t' : ThreadState} {b : Bool}
    (ht : s.threads[i]? = some t) (hne : t ≠ .finished) :
    Single { s with threads := s.threads.set i t', beamformingStarted := b } where
  single _ _ hj hk := h.single _ _ (unfinished_set ht hne hj) (unfinished_set ht hne hk)
  ready hcaller := absurd ⟨t, ht, hne⟩ (h.ready hcaller i)
  attached j hthread k hk := h.attached j hthread k (unfinished_set ht hne hk)
  destroyed hobject := absurd ⟨t, ht, hne⟩ (h.destroyed hobject i)

/-- Where no thread is left, the next one is the only one. -/
theorem Single.attach (h : Single s) (hcaller : s.caller = some .spawn)
    (hobject : s.object ≠ .destroyed) :
    Single s.attach := by
  have hlast : ∀ j, s.attach.Unfinished j → j = s.threads.length := by
    rintro j ⟨t, ht, hne⟩
    rw [State.attach] at ht
    rcases Nat.lt_trichotomy j s.threads.length with hlt | heq | hgt
    · rw [List.getElem?_append_left hlt] at ht
      exact absurd ⟨t, ht, hne⟩ (h.ready hcaller j)
    · exact heq
    · rw [List.getElem?_eq_none (by simpa using Nat.succ_le_of_lt hgt)] at ht
      contradiction
  refine ⟨?_, ?_, ?_, ?_⟩
  · intro i j hi hj
    rw [hlast i hi, hlast j hj]
  · intro hspawn
    simp [State.attach] at hspawn
  · intro i hi j hj
    rw [hlast j hj]
    exact Option.some.inj hi
  · intro hdestroyed
    exact absurd hdestroyed hobject

/-- A step keeps this where it tests the flag in time. -/
theorem Single.step (h : Single s) (ha : Timely s a) (hs : step s a = some s') : Single s' := by
  obtain ⟨hobject, -, hacts⟩ := acts_of_step hs
  have hleave : ∀ {o}, (if o = Object.constructing then Object.alive else o) = .destroyed →
      o = .destroyed := by
    intro o ho
    split_ifs at ho
    exact ho
  cases hacts with
  | call => exact h.congr rfl (by simp) (fun _ hi => hi) fun ho => absurd ho hobject
  | skip =>
    exact h.congr rfl (by simp [State.leave]) (fun _ hi => hi) fun ho => absurd (hleave ho) hobject
  | pass _ hstarted =>
    have hfinished : ∀ t ∈ s.threads, t = .finished := by
      rcases ha with hset | hfinished
      · rw [hstarted] at hset
        contradiction
      · exact hfinished
    exact h.congr rfl (fun _ => State.forall_not_unfinished_iff.mpr hfinished) (fun _ hi => hi)
      fun ho => absurd ho hobject
  | spawn hcaller => exact h.attach hcaller hobject
  | detach =>
    exact h.congr rfl (by simp [State.leave]) (by simp [State.leave]) fun ho =>
      absurd (hleave ho) hobject
  | move ht hne => exact h.move ht hne
  | again => exact h
  | destroy => exact h.congr rfl h.ready (fun _ hi => hi) (by simp)
  | @join i hthread ht =>
    -- The thread that is joined would be the only one left.
    have hfinished : ∀ j, ¬ s.Unfinished j := by
      intro j hj
      obtain rfl := h.attached i hthread j hj
      obtain ⟨t, hjt, hne⟩ := hj
      exact hne (Option.some.inj (hjt.symm.trans ht))
    exact h.congr rfl h.ready (by simp) fun _ => hfinished
  | terminate => exact h.congr rfl h.ready (fun _ hi => hi) (by simp [State.terminate])

/-- In runs that test the flag only in time, at most one thread is in `beamf_thread`, and it
has left where the destructor has returned. -/
theorem unique_of_timely (h : sesenta.Reaches Timely s) : s.Unique :=
  (h.invariant (P := Single) single_initial fun _ _ _ hs ha hstep => hs.step ha hstep).unique

/-! ### Untimely tests -/

/-- The object has not ended. -/
def Live (s : State) : Prop := ¬ (s.object = .destroyed ∨ s.object = .terminated)

theorem step_of_act (hlive : Live s) (h : act s a = some s') : sesenta.step s a = some s' :=
  (if_neg hlive).trans h

/-- A thread that is left can be in `beamf_thread` before anything else happens. -/
theorem exists_inside {i : ℕ} (hlive : Live s) (hi : s.Unfinished i) :
    ∃ as s', sesenta.runFrom s as = some s' ∧ s'.Inside i ∧ Live s' ∧
      ∀ j, j ≠ i → s'.threads[j]? = s.threads[j]? := by
  obtain ⟨t, ht, hne⟩ := hi
  cases t with
  | spawned =>
    obtain ⟨hlt, -⟩ := List.getElem?_eq_some_iff.mp ht
    have hstep : sesenta.step s (.enter i) =
        some { s with threads := s.threads.set i .entered } := step_of_act hlive (if_pos ht)
    refine ⟨[.enter i], { s with threads := s.threads.set i .entered }, ?_, ?_, hlive, ?_⟩
    · rw [System.runFrom, hstep]
      rfl
    · exact ⟨.entered, List.getElem?_set_self hlt, rfl⟩
    · intro j hj
      exact List.getElem?_set_ne hj.symm
  | entered | looping => exact ⟨[], s, rfl, ⟨_, ht, rfl⟩, hlive, fun _ _ => rfl⟩
  | finished => exact absurd rfl hne

/-- A test that is not in time can be followed by two threads in `beamf_thread`. -/
theorem not_unique_of_untimely {Allowed : State → Action → Prop} (h : sesenta.Reaches Allowed s)
    (hlive : Live s) (hcaller : s.caller = some .test) (ha : ¬ Timely s .test) :
    ∃ as s', sesenta.runFrom s as = some s' ∧ ¬ s'.Unique := by
  obtain ⟨hstarted, hleft⟩ := not_or.mp ha
  rw [← State.forall_not_unfinished_iff] at hleft
  push Not at hleft
  obtain ⟨i, t, ht, hne⟩ := hleft
  have hthread : s.beamformingThread = none := by
    by_contra hthread
    have hdetach := attached_of_reaches h hthread
    rw [hcaller] at hdetach
    contradiction
  obtain ⟨hlt, -⟩ := List.getElem?_eq_some_iff.mp ht
  have htest : sesenta.step s .test = some { s with caller := some .spawn } := by
    apply step_of_act hlive
    rw [act, if_pos hcaller, test, if_neg hstarted]
  have hspawn : sesenta.step { s with caller := some .spawn } .spawn = some s.attach := by
    apply step_of_act (s := { s with caller := some .spawn }) hlive
    rw [act, if_pos rfl, spawn, hthread]
    rfl
  have hrun : sesenta.runFrom s [.test, .spawn] = some s.attach := by
    rw [System.runFrom, htest, Option.bind_some, System.runFrom, hspawn]
    rfl
  -- The earlier thread is in `beamf_thread` first, and then the new one.
  obtain ⟨as, s₁, hs₁, hinside, hlive₁, hsame⟩ := exists_inside (s := s.attach) (i := i) hlive
    ⟨t, (List.getElem?_append_left hlt).trans ht, hne⟩
  have hnew : s₁.threads[s.threads.length]? = some .spawned := by
    rw [hsame _ (Nat.ne_of_gt hlt)]
    exact List.getElem?_concat_length
  obtain ⟨bs, s₂, hs₂, hinside', -, hsame'⟩ := exists_inside hlive₁ ⟨_, hnew, by decide⟩
  refine ⟨[.test, .spawn] ++ (as ++ bs), s₂, ?_, ?_⟩
  · rw [System.runFrom_append hrun, System.runFrom_append hs₁, hs₂]
  · intro hunique
    obtain ⟨u, hu, hinu⟩ := hinside
    have hstill : s₂.Inside i := ⟨u, (hsame' i (Nat.ne_of_lt hlt)).trans hu, hinu⟩
    exact Nat.ne_of_lt hlt (hunique.inside i _ hstill hinside')

end Steps

/-! ## Two runs -/

/-- The constructor and a client call, which finds the flag set. -/
def timelyRun : List Action :=
  [.test, .spawn, .detach, .enter 0, .store 0, .loop 0, .call, .test]

theorem timelyRun_unique :
    ∃ s, sesenta.runFrom .initial timelyRun = some s ∧ s.Inside 0 ∧ s.Unique := by
  have hallowed : sesenta.AllowedFrom Timely .initial timelyRun := by decide
  exact ⟨_, rfl, ⟨.looping, rfl, rfl⟩,
    unique_of_timely (System.Reaches.init.runFrom hallowed rfl)⟩

/-- The client calls before the first thread has begun. -/
def earlyRun : List Action :=
  [.test, .spawn, .detach, .call, .test, .spawn, .detach, .enter 0, .enter 1]

theorem earlyRun_not_unique :
    ∃ s, sesenta.runFrom .initial earlyRun = some s ∧ s.Inside 0 ∧ s.Inside 1 ∧ ¬ s.Unique := by
  refine ⟨_, rfl, ⟨.entered, rfl, rfl⟩, ⟨.entered, rfl, rfl⟩, ?_⟩
  intro hunique
  have heq := hunique.inside 0 1 ⟨.entered, rfl, rfl⟩ ⟨.entered, rfl, rfl⟩
  contradiction

end Beamforming
