-- SUMMARY: The beamforming thread and the client commands as two agents on one register bus, and the runs in which every word read belongs to a finished capture of its direction.
import FpgaAcoustic.Driver.BeamSelect
import FpgaAcoustic.Rtl.Capture

/-!
# Capture isolation

Both agents select a direction, pulse `start_capture`, poll `done_capture` and
read BRAM words. Client commands hold the driver mutex, so the clients are one
agent that runs one command after the other. The beamforming thread does not
hold it, so its transactions fall anywhere between those of the client.

A step is a clock cycle with at most one bus transaction. The model leaves out
the write of `led_select` after each round, which no other transaction reads.
-/

namespace CaptureIsolation

open Capture Sesenta

/-! ## Programs -/

/-- `set_mic_sel(dir)` and the `get_mic_ith` calls on what it captured. -/
structure Section where
  dir : BitVec 32
  mics : List (Fin numMics)
  deriving DecidableEq, Repr

/-- A command of the driver interface. -/
inductive Command
  | setMicSel (dir : BitVec 32)
  | getMicsBram (dir : BitVec 32)
  deriving DecidableEq, Repr

/-- The sections of a command, of which there is at least one. -/
def Command.sections : Command → Section × List Section
  | .setMicSel dir => (⟨dir, []⟩, [])
  | .getMicsBram dir => (⟨dir, [0]⟩, [⟨dir, [1]⟩, ⟨dir, [2]⟩, ⟨dir, [3]⟩])

/-- The sections of one pass of `beamf_thread`. -/
def beamRound : Section × List Section :=
  (⟨0#32, [0, 1, 2, 3]⟩, [⟨1#32, [0, 1, 2, 3]⟩, ⟨2#32, [0, 1, 2, 3]⟩, ⟨3#32, [0, 1, 2, 3]⟩])

/-- The next transaction of a section: `set_bit` and `clear_bit` are a load and
a store each. -/
inductive Pc
  | select
  | loadSet
  | storeSet
  | loadClear
  | storeClear
  | poll
  | read (idx : ℕ)
  deriving DecidableEq, Repr

/-- An agent: its current section, of which `mics` are still to be read, and the
sections after it. -/
structure Agent where
  pc : Pc
  dir : BitVec 32
  mics : List (Fin numMics)
  loaded : BitVec 32
  rest : List Section
  deriving DecidableEq, Repr

/-- The control registers of the bus. -/
structure Ctl where
  micSelect : BitVec 32
  startCapture : BitVec 32
  deriving DecidableEq, Repr

def Ctl.start (c : Ctl) : Bool := c.startCapture.getLsbD 0

namespace Agent

/-- The section an agent takes up, from `refill` when it has none left. -/
def next (a : Agent) (refill : Section × List Section) : Section × List Section :=
  match a.rest with
  | [] => refill
  | sec :: rest => (sec, rest)

/-- The poll has seen `done`. -/
def enterReads (a : Agent) : Agent :=
  { a with pc := if a.mics.isEmpty then .select else .read 0 }

/-- A word has been read. -/
def advance (a : Agent) (idx : ℕ) : Agent :=
  if idx + 1 < micSize then { a with pc := .read (idx + 1) }
  else { a with pc := if a.mics.tail.isEmpty then .select else .read 0, mics := a.mics.tail }

/-- The next transaction: the registers it leaves and the agent after it. -/
def transact (a : Agent) (refill : Section × List Section) (c : Ctl) (done : Bool) : Ctl × Agent :=
  match a.pc with
  | .select =>
    let (sec, rest) := a.next refill
    ({ c with micSelect := sec.dir },
      { a with pc := .loadSet, dir := sec.dir, mics := sec.mics, rest := rest })
  | .loadSet => (c, { a with pc := .storeSet, loaded := c.startCapture })
  | .storeSet => ({ c with startCapture := a.loaded ||| 1#32 }, { a with pc := .loadClear })
  | .loadClear => (c, { a with pc := .storeClear, loaded := c.startCapture })
  | .storeClear => ({ c with startCapture := a.loaded &&& ~~~1#32 }, { a with pc := .poll })
  | .poll => (c, if done then a.enterReads else a)
  | .read idx => (c, a.advance idx)

end Agent

/-! ## The system -/

/-- The registers of the programmable logic. `history` records the values of
`mic_select` in the cycles of the current or last capture. -/
structure Hw where
  ctl : Ctl
  counter : AddrCounter.Regs addrWidth
  history : List (BitVec 32)
  deriving DecidableEq, Repr

/-- A clock cycle of the logic, before the bus writes. -/
def Hw.tick (h : Hw) (pcmValid : Bool) : Hw where
  ctl := h.ctl
  counter := AddrCounter.step h.counter { enable := pcmValid, start := h.ctl.start }
  history :=
    if h.ctl.start then []
    else if h.counter.started then h.history ++ [h.ctl.micSelect]
    else h.history

inductive Who
  | beam
  | client
  deriving DecidableEq, Repr

def Who.other : Who → Who
  | .beam => .client
  | .client => .beam

structure State where
  hw : Hw
  agent : Who → Agent

/-- Who has the bus in a cycle. A client without sections left takes up `cmd`. -/
inductive Bus
  | idle
  | beam
  | client (cmd : Command)
  deriving DecidableEq, Repr

def Bus.turn : Bus → Option (Who × Section × List Section)
  | .idle => none
  | .beam => some (.beam, beamRound)
  | .client cmd => some (.client, cmd.sections)

/-- What the environment decides in a cycle. -/
structure Cycle where
  pcmValid : Bool
  bus : Bus
  deriving DecidableEq, Repr

/-- One clock cycle. -/
def step (s : State) (c : Cycle) : State :=
  match c.bus.turn with
  | none => { s with hw := s.hw.tick c.pcmValid }
  | some (who, refill) =>
    let (ctl, a) := (s.agent who).transact refill s.hw.ctl s.hw.counter.done
    { hw := { s.hw.tick c.pcmValid with ctl := ctl }
      agent := Function.update s.agent who a }

/-- The state in each cycle of a run. -/
def run (s : State) (cycles : ℕ → Cycle) : ℕ → State := Clocked.run step s cycles

/-- The threads are between sections. -/
def Idle (s : State) : Prop := ∀ who, (s.agent who).pc = .select

/-! ## Specification -/

/-- The last capture has finished, and `mic_select` was `dir` throughout. -/
def Hw.CapturedUnder (h : Hw) (dir : BitVec 32) : Prop :=
  h.counter.done = true ∧ ∀ v ∈ h.history, v = dir

/-- A word read in this cycle belongs to a finished capture of the direction it
is attributed to. -/
def ReadIsolated (s : State) (c : Cycle) : Prop :=
  ∀ turn ∈ c.bus.turn, ∀ idx, (s.agent turn.1).pc = .read idx →
    s.hw.CapturedUnder (s.agent turn.1).dir

/-- The agent waits for a capture it will read. -/
def Agent.capturing (a : Agent) : Bool :=
  match a.pc with
  | .select | .read _ => false
  | .poll => !a.mics.isEmpty
  | _ => true

/-- The agent reads out what it captured. -/
def Agent.reading (a : Agent) : Bool :=
  match a.pc with
  | .read _ => true
  | _ => false

/-- An agent writes `mic_select` only while the other one waits for no capture,
and sets `start_capture` only while the other one reads out none. -/
def Respectful (s : State) (c : Cycle) : Prop :=
  ∀ turn ∈ c.bus.turn,
    ((s.agent turn.1).pc = .select → (s.agent turn.1.other).capturing = false) ∧
    ((s.agent turn.1).pc = .storeSet → (s.agent turn.1.other).reading = false)

instance (s : State) (c : Cycle) : Decidable (Respectful s c) :=
  inferInstanceAs (Decidable (∀ turn ∈ c.bus.turn, _ ∧ _))

/-! ## The logic during a capture -/

/-- The counter has been started and has seen no pulse since. -/
def Hw.Fresh (h : Hw) : Prop :=
  h.counter.started = true ∧ h.counter.done = false ∧ h.history = []

/-- A capture runs or has finished, so far under `dir` only. -/
def Hw.RunningUnder (h : Hw) (dir : BitVec 32) : Prop :=
  (h.counter.started = !h.counter.done) ∧ ∀ v ∈ h.history, v = dir

section Tick

variable {h : Hw} {dir : BitVec 32}

@[simp] theorem Hw.tick_ctl (h : Hw) (v : Bool) : (h.tick v).ctl = h.ctl := rfl

theorem Hw.tick_fresh (hstart : h.ctl.start = true) (v : Bool) : (h.tick v).Fresh := by
  simp [Hw.Fresh, Hw.tick, hstart, AddrCounter.step, AddrCounter.Regs.done]

theorem Hw.Fresh.running (hfresh : h.Fresh) : h.RunningUnder dir := by
  obtain ⟨hstarted, hdone, hhistory⟩ := hfresh
  refine ⟨by rw [hstarted, hdone]; rfl, ?_⟩
  rw [hhistory]
  intro v hv
  exact absurd hv List.not_mem_nil

/-- While `start` is low the counter is started or done, never both. -/
theorem started_step {s : AddrCounter.Regs addrWidth} {i : AddrCounter.In}
    (hstart : i.start = false) (h : s.started = !s.done) :
    (AddrCounter.step s i).started = !(AddrCounter.step s i).done := by
  unfold AddrCounter.step AddrCounter.Regs.done at *
  rw [hstart, if_neg Bool.false_ne_true]
  split
  · exact h
  · split
    · rfl
    · exact h

theorem Hw.RunningUnder.tick (hrun : h.RunningUnder dir) (hstart : h.ctl.start = false)
    (hsel : h.ctl.micSelect = dir) (v : Bool) : (h.tick v).RunningUnder dir := by
  obtain ⟨hcounter, hhistory⟩ := hrun
  refine ⟨started_step hstart hcounter, ?_⟩
  simp only [Hw.tick, hstart, Bool.false_eq_true, if_false, hsel]
  split
  · intro u hu
    rcases List.mem_append.mp hu with hu | hu
    · exact hhistory u hu
    · exact List.mem_singleton.mp hu
  · exact hhistory

/-- A finished capture stays as it is until the next start. -/
theorem Hw.RunningUnder.tick_done (hrun : h.RunningUnder dir) (hdone : h.counter.done = true)
    (hstart : h.ctl.start = false) (v : Bool) :
    (h.tick v).RunningUnder dir ∧ (h.tick v).counter.done = true := by
  obtain ⟨hcounter, hhistory⟩ := hrun
  have hstopped : h.counter.started = false := by rw [hcounter, hdone]; rfl
  have hdone' : (h.tick v).counter.done = true := by
    unfold Hw.tick AddrCounter.step AddrCounter.Regs.done at *
    simp only [hstart, hstopped, Bool.and_false, Bool.false_eq_true, if_false]
    split
    · rfl
    · exact hdone
  refine ⟨⟨started_step hstart hcounter, ?_⟩, hdone'⟩
  simp only [Hw.tick, hstart, hstopped, Bool.false_eq_true, if_false]
  exact hhistory

end Tick

/-! ## What an agent relies on -/

/-- The state of the registers and of the logic an agent relies on at its next
transaction. -/
def Agent.Ok (h : Hw) (a : Agent) : Prop :=
  match a.pc with
  | .select => True
  | .loadSet | .storeSet => h.ctl.micSelect = a.dir
  | .loadClear => h.ctl.micSelect = a.dir ∧ h.ctl.start = true
  | .storeClear => h.ctl.micSelect = a.dir ∧ h.ctl.start = true ∧ h.Fresh
  | .poll => a.mics ≠ [] →
      h.ctl.micSelect = a.dir ∧ h.ctl.start = false ∧ h.RunningUnder a.dir
  | .read _ => h.ctl.start = false ∧ h.RunningUnder a.dir ∧ h.counter.done = true

/-- The agent has set `start_capture` and waits for the capture. -/
def Agent.pulsing (a : Agent) : Bool :=
  match a.pc with
  | .loadClear | .storeClear => true
  | .poll => !a.mics.isEmpty
  | _ => false

/-- While `a` waits for a capture `b` waits for none, and from the pulse on `b`
reads out none. -/
def Agent.Compatible (a b : Agent) : Prop :=
  (a.capturing = true → b.capturing = false) ∧ (a.pulsing = true → b.reading = false)

/-- The invariant of the respectful runs. -/
def Inv (s : State) : Prop :=
  ∀ who, (s.agent who).Ok s.hw ∧ (s.agent who).Compatible (s.agent who.other)

theorem Agent.capturing_of_pulsing {a : Agent} (h : a.pulsing = true) : a.capturing = true := by
  unfold pulsing at h
  unfold capturing
  cases hpc : a.pc <;> simp_all

/-- A clock cycle without a bus write keeps what an agent relies on. -/
theorem Agent.Ok.tick {h : Hw} {a : Agent} (hok : a.Ok h) (v : Bool) : a.Ok (h.tick v) := by
  unfold Agent.Ok at hok ⊢
  cases hpc : a.pc with
  | select => trivial
  | loadSet => simpa only [hpc, Hw.tick_ctl] using hok
  | storeSet => simpa only [hpc, Hw.tick_ctl] using hok
  | loadClear => simpa only [hpc, Hw.tick_ctl] using hok
  | storeClear =>
    simp only [hpc] at hok ⊢
    exact ⟨hok.1, hok.2.1, Hw.tick_fresh hok.2.1 v⟩
  | poll =>
    simp only [hpc] at hok ⊢
    intro hmics
    obtain ⟨hsel, hstart, hrun⟩ := hok hmics
    exact ⟨hsel, hstart, hrun.tick hstart hsel v⟩
  | read idx =>
    simp only [hpc] at hok ⊢
    obtain ⟨hstart, hrun, hdone⟩ := hok
    exact ⟨hstart, hrun.tick_done hdone hstart v⟩

/-- An agent that neither waits for a capture nor reads one relies on nothing. -/
theorem Agent.Ok.of_quiet {h : Hw} {a : Agent} (hcap : a.capturing = false)
    (hread : a.reading = false) : a.Ok h := by
  unfold capturing at hcap
  unfold reading at hread
  unfold Agent.Ok
  cases hpc : a.pc <;> simp_all

/-- An agent that waits for no capture does not rely on `mic_select`. -/
theorem Agent.Ok.of_not_capturing {h : Hw} {a : Agent} {c : Ctl} (hok : a.Ok h)
    (hcap : a.capturing = false) (hstart : c.start = h.ctl.start) : a.Ok { h with ctl := c } := by
  unfold capturing at hcap
  unfold Agent.Ok at hok ⊢
  cases hpc : a.pc with
  | select => trivial
  | poll =>
    simp only [hpc, Bool.not_eq_false', List.isEmpty_iff] at hcap
    exact fun hmics => absurd hcap hmics
  | read idx =>
    simp only [hpc] at hok ⊢
    exact ⟨hstart.trans hok.1, hok.2⟩
  | _ => simp [hpc] at hcap

section Transact

variable {h : Hw} {a b : Agent} {refill : Section × List Section} {v : Bool}

theorem start_set (w : BitVec 32) : (w ||| 1#32).getLsbD 0 = true := by
  simp

theorem start_clear (w : BitVec 32) : (w &&& ~~~1#32).getLsbD 0 = false := by
  simp

/-- The agent that acts finds what its next transaction relies on. -/
theorem Agent.Ok.transact (hok : a.Ok h) :
    (a.transact refill h.ctl h.counter.done).2.Ok
      { h.tick v with ctl := (a.transact refill h.ctl h.counter.done).1 } := by
  unfold Agent.Ok at hok
  unfold Agent.transact
  cases hpc : a.pc with
  | select => exact rfl
  | loadSet =>
    simp only [hpc] at hok
    exact hok
  | storeSet =>
    simp only [hpc] at hok
    exact ⟨hok, start_set a.loaded⟩
  | loadClear =>
    simp only [hpc] at hok
    exact ⟨hok.1, hok.2, Hw.tick_fresh hok.2 v⟩
  | storeClear =>
    simp only [hpc] at hok
    exact fun _ => ⟨hok.1, start_clear a.loaded, (Hw.tick_fresh hok.2.1 v).running⟩
  | poll =>
    simp only [hpc] at hok
    cases hdone : h.counter.done with
    | false =>
      simp only [Bool.false_eq_true, if_false, Agent.Ok, hpc]
      intro hmics
      obtain ⟨hsel, hstart, hrun⟩ := hok hmics
      exact ⟨hsel, hstart, hrun.tick hstart hsel v⟩
    | true =>
      simp only [if_true, enterReads, Agent.Ok]
      cases hmics : a.mics with
      | nil => trivial
      | cons mic mics =>
        obtain ⟨-, hstart, hrun⟩ := hok (by simp [hmics])
        exact ⟨hstart, hrun.tick_done hdone hstart v⟩
  | read idx =>
    simp only [hpc] at hok
    obtain ⟨hstart, hrun, hdone⟩ := hok
    have hread := hrun.tick_done hdone hstart v
    by_cases hidx : idx + 1 < micSize
    · simp only [advance, if_pos hidx, Agent.Ok]
      exact ⟨hstart, hread⟩
    · simp only [advance, if_neg hidx, Agent.Ok]
      cases hmics : a.mics.tail with
      | nil => trivial
      | cons mic mics => exact ⟨hstart, hread⟩

/-- The other agent keeps what it relies on. -/
theorem Agent.Ok.other (hok : b.Ok h) (hab : a.Compatible b)
    (hselect : a.pc = .select → b.capturing = false)
    (hset : a.pc = .storeSet → b.reading = false) :
    b.Ok { h.tick v with ctl := (a.transact refill h.ctl h.counter.done).1 } := by
  have hcap : a.capturing = true → b.capturing = false := hab.1
  have hpulse : a.pulsing = true → b.reading = false := hab.2
  unfold Agent.transact
  cases hpc : a.pc with
  | select => exact (hok.tick v).of_not_capturing (hselect hpc) rfl
  | storeSet =>
    exact Ok.of_quiet (hcap (by simp [capturing, hpc])) (hset hpc)
  | storeClear =>
    exact Ok.of_quiet (hcap (by simp [capturing, hpc])) (hpulse (by simp [pulsing, hpc]))
  | _ => exact hok.tick v

/-- What an agent can become in one transaction. -/
theorem Agent.transact_phase (a : Agent) (refill : Section × List Section) (c : Ctl) (done : Bool) :
    let a' := (a.transact refill c done).2
    (a'.capturing = true → a.capturing = true ∨ a.pc = .select) ∧
      (a'.pulsing = true → a.pulsing = true ∨ a.pc = .storeSet) ∧
      (a'.reading = true → a.reading = true ∨ a.pulsing = true) := by
  unfold transact
  cases hpc : a.pc with
  | poll =>
    cases done with
    | false => simp [capturing, pulsing, reading, hpc]
    | true =>
      cases hmics : a.mics with
      | nil => simp [enterReads, capturing, pulsing, reading, hmics]
      | cons mic mics => simp [enterReads, capturing, pulsing, reading, hpc, hmics]
  | read idx =>
    by_cases hidx : idx + 1 < micSize
    · simp [advance, hidx, capturing, pulsing, reading, hpc]
    · cases hmics : a.mics.tail with
      | nil => simp [advance, hidx, capturing, pulsing, reading, hmics]
      | cons mic mics => simp [advance, hidx, capturing, pulsing, reading, hpc, hmics]
  | _ => simp [capturing, pulsing, reading, hpc]

theorem Agent.Compatible.transact {c : Ctl} {done : Bool} (hab : a.Compatible b)
    (hba : b.Compatible a) (hselect : a.pc = .select → b.capturing = false)
    (hset : a.pc = .storeSet → b.reading = false) :
    (a.transact refill c done).2.Compatible b ∧ b.Compatible (a.transact refill c done).2 := by
  obtain ⟨hcap, hpulse, hread⟩ := a.transact_phase refill c done
  have hcapturing : (a.transact refill c done).2.capturing = true → b.capturing = false := by
    intro h
    rcases hcap h with h | h
    · exact hab.1 h
    · exact hselect h
  refine ⟨⟨hcapturing, ?_⟩, ?_, ?_⟩
  · intro h
    rcases hpulse h with h | h
    · exact hab.2 h
    · exact hset h
  · intro hb
    by_contra h
    rw [hcapturing (Bool.eq_true_of_not_eq_false h)] at hb
    exact Bool.noConfusion hb
  · intro hb
    by_contra h
    rcases hread (Bool.eq_true_of_not_eq_false h) with h | h
    · rw [hba.2 hb] at h
      exact Bool.noConfusion h
    · have := hba.1 (capturing_of_pulsing hb)
      rw [capturing_of_pulsing h] at this
      exact Bool.noConfusion this

end Transact

/-! ## Respectful runs -/

theorem Who.other_other (who : Who) : who.other.other = who := by cases who <;> rfl

theorem Who.eq_or_eq_other (w who : Who) : w = who ∨ w = who.other := by
  cases w <;> cases who <;> simp [Who.other]

theorem Inv.of_idle {s : State} (h : Idle s) : Inv s := by
  intro who
  have hquiet : ∀ w, (s.agent w).capturing = false ∧ (s.agent w).reading = false := by
    intro w
    simp [Agent.capturing, Agent.reading, h w]
  exact ⟨Agent.Ok.of_quiet (hquiet who).1 (hquiet who).2,
    fun _ => (hquiet who.other).1, fun _ => (hquiet who.other).2⟩

/-- A respectful cycle keeps the invariant. -/
theorem Inv.step {s : State} {c : Cycle} (hinv : Inv s) (hc : Respectful s c) :
    Inv (step s c) := by
  unfold CaptureIsolation.step
  cases hturn : c.bus.turn with
  | none => exact fun who => ⟨(hinv who).1.tick _, (hinv who).2⟩
  | some turn =>
    obtain ⟨who, refill⟩ := turn
    obtain ⟨hselect, hset⟩ := hc (who, refill) (by rw [hturn]; rfl)
    obtain ⟨hok, hab⟩ := hinv who
    obtain ⟨hok', hba⟩ := hinv who.other
    rw [who.other_other] at hba
    have hne : who.other ≠ who := by cases who <;> decide
    obtain ⟨hab', hba'⟩ :=
      @Agent.Compatible.transact _ _ refill s.hw.ctl s.hw.counter.done hab hba hselect hset
    intro w
    rcases w.eq_or_eq_other who with rfl | rfl
    · simp only [Function.update_self, Function.update_of_ne hne]
      exact ⟨hok.transact, hab'⟩
    · simp only [Function.update_self, Function.update_of_ne hne, who.other_other]
      exact ⟨hok'.other hab hselect hset, hba'⟩

theorem Inv.readIsolated {s : State} (hinv : Inv s) (c : Cycle) : ReadIsolated s c := by
  rintro ⟨who, refill⟩ _ idx hread
  obtain ⟨hok, -⟩ := hinv who
  simp only [Agent.Ok, hread] at hok
  exact ⟨hok.2.2, hok.2.1.2⟩

/-- All registers cleared and both agents between sections. -/
def powerUp : State where
  hw := ⟨⟨0#32, 0#32⟩, default, []⟩
  agent _ := ⟨.select, 0#32, [], 0#32, []⟩

theorem powerUp_idle : Idle powerUp := fun _ => rfl

/-- A client sets the direction and polls, and the thread goes on from there. -/
def inTurn (t : ℕ) : Cycle := ⟨t % 2 == 0, if t < 5 then .client (.setMicSel 2#32) else .beam⟩

/-- The thread captures direction `0`, and in cycle `5` a client selects
direction `3`. -/
def overwritten (t : ℕ) : Cycle :=
  ⟨t % 2 == 0, if t = 5 then .client (.setMicSel 3#32) else .beam⟩

/-- The thread polls for its capture of direction `0`, which has counted `n`
pulses and has seen direction `3`. -/
structure Spoiled (n : ℕ) (s : State) : Prop where
  pc : (s.agent .beam).pc = .poll
  dir : (s.agent .beam).dir = 0#32
  mics : (s.agent .beam).mics = [0, 1, 2, 3]
  start : s.hw.ctl.start = false
  counting : AddrCounter.Counting n s.hw.counter
  spoiled : 3#32 ∈ s.hw.history

theorem Hw.mem_history_tick {h : Hw} {dir : BitVec 32} (hstart : h.ctl.start = false)
    (hmem : dir ∈ h.history) (v : Bool) : dir ∈ (h.tick v).history := by
  simp only [Hw.tick, hstart, Bool.false_eq_true, if_false]
  split
  · exact List.mem_append_left _ hmem
  · exact hmem

section Spoiled

variable {n : ℕ} {s : State} {v : Bool}

/-- A poll that does not see `done` changes nothing but the logic. -/
theorem step_poll (hpc : (s.agent .beam).pc = .poll) (hdone : s.hw.counter.done = false) :
    step s ⟨v, .beam⟩ = { s with hw := s.hw.tick v } := by
  have hsame : (s.agent .beam).transact beamRound s.hw.ctl s.hw.counter.done =
      (s.hw.ctl, s.agent .beam) := by
    simp [Agent.transact, hpc, hdone]
  unfold step
  simp only [Bus.turn, hsame, Function.update_eq_self]
  rfl

theorem Spoiled.step (h : Spoiled n s) (hapart : s.hw.counter.writeEnableReg = true → v = false)
    (hmore : v = true ∨ n < (AddrCounter.maxCount addrWidth).toNat) :
    Spoiled (n + v.toNat) (step s ⟨v, .beam⟩) ∧
      (step s ⟨v, .beam⟩).hw.counter.writeEnableReg = v := by
  rw [step_poll h.pc h.counting.not_done]
  have hdone : (AddrCounter.step s.hw.counter { enable := v, start := s.hw.ctl.start }).done =
      false := by
    refine Bool.eq_false_iff.mpr ?_
    intro hdone
    obtain ⟨hv, hn⟩ := (h.counting.done_iff h.start).mp hdone
    rcases hmore with hmore | hmore
    · exact absurd (hmore.symm.trans hv) (by decide)
    · exact absurd hn (Nat.ne_of_lt hmore)
  exact ⟨⟨h.pc, h.dir, h.mics, h.start, h.counting.advance h.start hapart hdone,
    Hw.mem_history_tick h.start h.spoiled v⟩, h.counting.writeEnableReg h.start⟩

/-- The poll that sees `done` starts to read. -/
theorem step_poll_done (hpc : (s.agent .beam).pc = .poll) (hmics : (s.agent .beam).mics ≠ [])
    (hdone : s.hw.counter.done = true) :
    (step s ⟨v, .beam⟩).hw = s.hw.tick v ∧
      ((step s ⟨v, .beam⟩).agent .beam).pc = .read 0 ∧
      ((step s ⟨v, .beam⟩).agent .beam).dir = (s.agent .beam).dir := by
  simp [step, Bus.turn, Agent.transact, hpc, hdone, Agent.enterReads, hmics, Hw.tick]

/-- The last pulse ends the capture, and the thread goes on to read it. -/
theorem Spoiled.finish (h : Spoiled n s) (hwe : s.hw.counter.writeEnableReg = false)
    (hlast : n + 1 = (AddrCounter.maxCount addrWidth).toNat) :
    let s' := CaptureIsolation.step (CaptureIsolation.step
      (CaptureIsolation.step s ⟨true, .beam⟩) ⟨false, .beam⟩) ⟨true, .beam⟩
    (s'.agent .beam).pc = .read 0 ∧ (s'.agent .beam).dir = 0#32 ∧ 3#32 ∈ s'.hw.history := by
  obtain ⟨hfull, -⟩ := h.step (v := true) (fun h => absurd (h.symm.trans hwe) (by decide))
    (Or.inl rfl)
  have hquiet := step_poll (v := false) hfull.pc hfull.counting.not_done
  have hmem := Hw.mem_history_tick hfull.start hfull.spoiled false
  have hdone : ((CaptureIsolation.step s ⟨true, .beam⟩).hw.tick false).counter.done = true :=
    (hfull.counting.done_iff hfull.start).mpr ⟨rfl, hlast⟩
  rw [hquiet]
  obtain ⟨hhw, hpc, hdir⟩ := step_poll_done (v := true)
    (s := { CaptureIsolation.step s ⟨true, .beam⟩ with
      hw := (CaptureIsolation.step s ⟨true, .beam⟩).hw.tick false })
    hfull.pc (by rw [hfull.mics]; decide) hdone
  refine ⟨hpc, hdir.trans hfull.dir, ?_⟩
  rw [hhw]
  exact Hw.mem_history_tick
    (h := (CaptureIsolation.step s ⟨true, .beam⟩).hw.tick false) hfull.start hmem true

end Spoiled

theorem overwritten_even (k : ℕ) : overwritten (8 + 2 * k) = ⟨true, .beam⟩ := by
  simp only [overwritten, show (8 + 2 * k) % 2 = 0 by omega, show ¬ 8 + 2 * k = 5 by omega]
  rfl

theorem overwritten_odd (k : ℕ) : overwritten (8 + 2 * k + 1) = ⟨false, .beam⟩ := by
  simp only [overwritten, show (8 + 2 * k + 1) % 2 = 1 by omega,
    show ¬ 8 + 2 * k + 1 = 5 by omega]
  rfl

/-- The capture counts on, one pulse in two cycles. -/
theorem overwritten_spoiled {k : ℕ} (hk : k + 1 < (AddrCounter.maxCount addrWidth).toNat) :
    Spoiled (k + 1) (run powerUp overwritten (8 + 2 * k)) ∧
      (run powerUp overwritten (8 + 2 * k)).hw.counter.writeEnableReg = false := by
  induction k with
  | zero =>
    refine ⟨⟨by decide, by decide, by decide, by decide, ?_, by decide⟩, by decide⟩
    exact ⟨by decide, by decide, by decide, by decide, by decide⟩
  | succ k ih =>
    obtain ⟨hspoiled, hwe⟩ := ih (Nat.lt_of_succ_lt hk)
    obtain ⟨hpulse, -⟩ := hspoiled.step (v := true)
      (fun h => absurd (h.symm.trans hwe) (by decide)) (Or.inl rfl)
    have hrun : run powerUp overwritten (8 + 2 * (k + 1)) =
        step (step (run powerUp overwritten (8 + 2 * k)) ⟨true, .beam⟩) ⟨false, .beam⟩ := by
      rw [← overwritten_even k, ← overwritten_odd k]
      rfl
    rw [hrun]
    exact hpulse.step (fun _ => rfl) (Or.inr hk)

/-- Three cycles after the last count but one the thread reads a spoiled word. -/
theorem overwritten_reads {k : ℕ} (hk : k + 2 = (AddrCounter.maxCount addrWidth).toNat) :
    ¬ ReadIsolated (run powerUp overwritten (8 + 2 * k + 3)) (overwritten (8 + 2 * (k + 1) + 1)) := by
  obtain ⟨hspoiled, hwe⟩ := @overwritten_spoiled k (by omega)
  obtain ⟨hpc, hdir, hmem⟩ := hspoiled.finish hwe hk
  have hrun : run powerUp overwritten (8 + 2 * k + 3) =
      step (step (step (run powerUp overwritten (8 + 2 * k)) ⟨true, .beam⟩) ⟨false, .beam⟩)
        ⟨true, .beam⟩ := by
    have hthird : overwritten (8 + 2 * k + 2) = ⟨true, .beam⟩ := overwritten_even (k + 1)
    rw [run, Clocked.run_succ, Clocked.run_succ, Clocked.run_succ, overwritten_even,
      overwritten_odd, hthird]
  rw [hrun, overwritten_odd]
  intro hisolated
  have hzero : (3#32 : BitVec 32) = 0#32 :=
    ((hisolated (Who.beam, beamRound) rfl 0 hpc).2 3#32 hmem).trans hdir
  exact absurd hzero (by decide)

end CaptureIsolation
