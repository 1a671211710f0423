-- SUMMARY: The agents of the register bus on the design from the pins to the BRAMs, and what an agent that reads finds in the memories.
import FpgaAcoustic.Driver.CaptureIsolation
import FpgaAcoustic.Rtl.Pipeline

/-!
# Recordings

The control registers that the agents write are the inputs of the design, and
the counter that they poll is the one of the design. The strobes are those of
the decimators. What an agent reads is therefore a function of the levels of the
pins and of the cycle in which its capture has started.
-/

namespace Recording

open CaptureIsolation
open Pipeline (wordAt captureCycles)

/-- What the environment decides in a cycle. -/
structure Input where
  rst : Bool
  mData : Fin 4 → Bool
  bus : Bus

/-- The agents and their registers, and the design with the counter that they
poll. -/
structure State where
  sys : CaptureIsolation.State
  logic : Pipeline.Regs
  same : logic.capture.counter = sys.hw.counter

namespace State

variable (s : State) (i : Input)

def cycle : Cycle := ⟨(s.logic.mics.cic 0).pcmValid, i.bus⟩

def logicIn : Pipeline.In := ⟨i.rst, i.mData, s.sys.hw.ctl.start, s.sys.hw.ctl.micSelect⟩

/-- `start_capture`, bit `0` of its register. -/
def start : Bool := s.sys.hw.ctl.start

def micSelect : BitVec 32 := s.sys.hw.ctl.micSelect

def done : Bool := s.logic.capture.counter.done

end State

variable (ext2sc : BitVec 16 → BitVec 32)

theorem step_same (s : State) (i : Input) :
    (Pipeline.step ext2sc s.logic (s.logicIn i)).capture.counter =
      (CaptureIsolation.step s.sys (s.cycle i)).hw.counter := by
  have htick : (Pipeline.step ext2sc s.logic (s.logicIn i)).capture.counter =
      (s.sys.hw.tick (s.logic.mics.cic 0).pcmValid).counter := by
    show AddrCounter.step s.logic.capture.counter _ = AddrCounter.step s.sys.hw.counter _
    rw [s.same]
    rfl
  rw [htick]
  unfold CaptureIsolation.step
  cases (s.cycle i).bus.turn <;> rfl

/-- One clock cycle. -/
def step (s : State) (i : Input) : State where
  sys := CaptureIsolation.step s.sys (s.cycle i)
  logic := Pipeline.step ext2sc s.logic (s.logicIn i)
  same := step_same ext2sc s i

/-- The state in each cycle of a run. -/
def run (s : State) (inp : ℕ → Input) : ℕ → State := Clocked.run (step ext2sc) s inp

/-- The inputs of the design in each cycle. -/
def logicInputs (s : State) (inp : ℕ → Input) (t : ℕ) : Pipeline.In :=
  (run ext2sc s inp t).logicIn (inp t)

/-! ## Specification -/

/-- `start` fell after cycle `f` and is low since then. -/
def Pulsed (s : State) (inp : ℕ → Input) (f t : ℕ) : Prop :=
  f < t ∧ (run ext2sc s inp f).start = true ∧
    ∀ u, f < u → u ≤ t → (run ext2sc s inp u).start = false

/-- An agent waits for its capture at most as long as one lasts. -/
def WaitEnds (s : State) (inp : ℕ → Input) (t : ℕ) (a : Agent) : Prop :=
  a.pc = .poll → a.mics ≠ [] →
    ∃ f, Pulsed ext2sc s inp f t ∧ (f + captureCycles ≤ t → (run ext2sc s inp t).done = true)

/-- While an agent reads, every word of the four BRAMs but the first is a sample
of a capture under its direction. -/
def ReadsExact (s : State) (inp : ℕ → Input) (t : ℕ) (a : Agent) : Prop :=
  ∀ idx, a.pc = .read idx → ∃ f, Pulsed ext2sc s inp f t ∧ ∀ mic word, word ≠ 0 →
    (run ext2sc s inp t).logic.bram mic word =
      wordAt ext2sc (logicInputs ext2sc s inp) a.dir f mic word

/-! ## What an agent has done -/

/-- The direction has been selected in the cycles `u .. t`. -/
def Selected (s : State) (inp : ℕ → Input) (dir : BitVec 32) (u t : ℕ) : Prop :=
  ∀ c, u ≤ c → c ≤ t → (run ext2sc s inp c).micSelect = dir

/-- How long the direction of an agent has been selected at its next
transaction, and the pulse and the end of its capture. -/
def Past (s : State) (inp : ℕ → Input) (t : ℕ) (a : Agent) : Prop :=
  match a.pc with
  | .select => True
  | .loadSet => Selected ext2sc s inp a.dir t t
  | .storeSet => Selected ext2sc s inp a.dir (t - 1) t
  | .loadClear | .storeClear => Selected ext2sc s inp a.dir (t - 2) t
  | .poll => a.mics ≠ [] →
      ∃ f, Pulsed ext2sc s inp f t ∧ Selected ext2sc s inp a.dir (f - 2) t
  | .read _ => ∃ f T, f < T ∧ T ≤ t ∧ Pulsed ext2sc s inp f t ∧
      Selected ext2sc s inp a.dir (f - 2) T ∧ (run ext2sc s inp T).done = true

section Past

variable {ext2sc} {s : State} {inp : ℕ → Input} {dir : BitVec 32} {a : Agent} {f u v t : ℕ}

theorem Selected.succ (h : Selected ext2sc s inp dir u t) (hv : u ≤ v)
    (hnext : (run ext2sc s inp (t + 1)).micSelect = dir) :
    Selected ext2sc s inp dir v (t + 1) := by
  intro c hc hct
  rcases Nat.le_succ_iff.mp hct with hle | rfl
  · exact h c (hv.trans hc) hle
  · exact hnext

theorem Pulsed.succ (h : Pulsed ext2sc s inp f t)
    (hnext : (run ext2sc s inp (t + 1)).start = false) : Pulsed ext2sc s inp f (t + 1) := by
  obtain ⟨hlt, hhigh, hlow⟩ := h
  refine ⟨Nat.lt_succ_of_lt hlt, hhigh, fun c hfc hct => ?_⟩
  rcases Nat.le_succ_iff.mp hct with hle | rfl
  · exact hlow c hfc hle
  · exact hnext

/-- A cycle without a transaction of the agent. -/
theorem Past.wait (h : Past ext2sc s inp t a) (hok : a.Ok (run ext2sc s inp (t + 1)).sys.hw) :
    Past ext2sc s inp (t + 1) a := by
  unfold Past at h ⊢
  unfold Agent.Ok at hok
  cases hpc : a.pc with
  | select => trivial
  | loadSet =>
    simp only [hpc] at hok ⊢
    intro c hc hct
    rw [Nat.le_antisymm hct hc]
    exact hok
  | storeSet =>
    simp only [hpc] at h hok ⊢
    exact h.succ (by omega) hok
  | loadClear | storeClear =>
    simp only [hpc] at h hok ⊢
    exact h.succ (by omega) hok.1
  | poll =>
    simp only [hpc] at h hok ⊢
    intro hmics
    obtain ⟨f, hpulsed, hselected⟩ := h hmics
    obtain ⟨hsel, hstart, -⟩ := hok hmics
    exact ⟨f, hpulsed.succ hstart, hselected.succ le_rfl hsel⟩
  | read idx =>
    simp only [hpc] at h hok ⊢
    obtain ⟨f, T, hfT, hT, hpulsed, hselected, hdone⟩ := h
    exact ⟨f, T, hfT, Nat.le_succ_of_le hT, hpulsed.succ hok.1, hselected, hdone⟩

/-- A transaction of the agent. -/
theorem Past.transact {refill : Section × List Section} (h : Past ext2sc s inp t a)
    (hok : a.Ok (run ext2sc s inp t).sys.hw)
    (hok' : (a.transact refill (run ext2sc s inp t).sys.hw.ctl
      (run ext2sc s inp t).sys.hw.counter.done).2.Ok (run ext2sc s inp (t + 1)).sys.hw) :
    Past ext2sc s inp (t + 1) (a.transact refill (run ext2sc s inp t).sys.hw.ctl
      (run ext2sc s inp t).sys.hw.counter.done).2 := by
  unfold Past at h
  unfold Agent.Ok at hok
  unfold Agent.transact at hok' ⊢
  cases hpc : a.pc with
  | select =>
    simp only [hpc] at hok' ⊢
    intro c hc hct
    rw [Nat.le_antisymm hct hc]
    exact hok'
  | loadSet =>
    simp only [hpc] at h hok' ⊢
    exact h.succ (by omega) hok'
  | storeSet =>
    simp only [hpc] at h hok' ⊢
    exact h.succ (by omega) hok'.1
  | loadClear =>
    simp only [hpc] at h hok' ⊢
    exact h.succ (by omega) hok'.1
  | storeClear =>
    simp only [hpc] at h hok hok' ⊢
    intro hmics
    obtain ⟨hsel, hstart, -⟩ := hok' hmics
    refine ⟨t, ⟨Nat.lt_succ_self t, hok.2.1, fun c htc hct => ?_⟩, h.succ le_rfl hsel⟩
    rw [Nat.le_antisymm hct htc]
    exact hstart
  | poll =>
    simp only [hpc] at h hok hok' ⊢
    cases hdone : (run ext2sc s inp t).sys.hw.counter.done with
    | false =>
      rw [hdone, if_neg Bool.false_ne_true] at hok'
      rw [if_neg Bool.false_ne_true]
      refine Past.wait ?_ hok'
      unfold Past
      simp only [hpc]
      exact h
    | true =>
      rw [hdone, if_pos rfl] at hok'
      rw [if_pos rfl]
      unfold Agent.enterReads at hok' ⊢
      cases hmics : a.mics with
      | nil => trivial
      | cons mic mics =>
        rw [hmics] at hok'
        obtain ⟨f, hpulsed, hselected⟩ := h (by rw [hmics]; exact List.cons_ne_nil mic mics)
        refine ⟨f, t, hpulsed.1, Nat.le_succ t, hpulsed.succ hok'.1, hselected, ?_⟩
        rw [State.done, (run ext2sc s inp t).same]
        exact hdone
  | read idx =>
    simp only [hpc] at h hok' ⊢
    obtain ⟨f, T, hfT, hT, hpulsed, hselected, hdone⟩ := h
    have hreads : (run ext2sc s inp (t + 1)).start = false → ∃ f T, f < T ∧ T ≤ t + 1 ∧
        Pulsed ext2sc s inp f (t + 1) ∧ Selected ext2sc s inp a.dir (f - 2) T ∧
          (run ext2sc s inp T).done = true := fun hlow =>
      ⟨f, T, hfT, Nat.le_succ_of_le hT, hpulsed.succ hlow, hselected, hdone⟩
    unfold Agent.advance at hok' ⊢
    by_cases hidx : idx + 1 < Sesenta.micSize
    · rw [if_pos hidx] at hok' ⊢
      exact hreads hok'.1
    · rw [if_neg hidx] at hok' ⊢
      cases hmics : a.mics.tail with
      | nil => trivial
      | cons mic mics =>
        rw [hmics] at hok'
        exact hreads hok'.1

end Past

/-! ## Runs -/

section Run

variable {ext2sc} {s : State} {inp : ℕ → Input} {f t T : ℕ}

theorem run_logic (t : ℕ) : (run ext2sc s inp t).logic =
    Pipeline.run ext2sc s.logic (logicInputs ext2sc s inp) t := by
  induction t with
  | zero => rfl
  | succ t ih =>
    show Pipeline.step ext2sc (run ext2sc s inp t).logic _ = _
    rw [ih]
    rfl

/-- The cycles of the run, as the agents see them. -/
def Respectful (ext2sc : BitVec 16 → BitVec 32) (s : State) (inp : ℕ → Input) (T : ℕ) : Prop :=
  ∀ t, t < T → CaptureIsolation.Respectful (run ext2sc s inp t).sys
    ((run ext2sc s inp t).cycle (inp t))

theorem inv_of_respectful (hidle : Idle s.sys) (h : Respectful ext2sc s inp T) (ht : t ≤ T) :
    Inv (run ext2sc s inp t).sys := by
  induction t with
  | zero => exact Inv.of_idle hidle
  | succ t ih => exact (ih (Nat.le_of_succ_le ht)).step (h t ht)

/-- An agent is left alone, or makes its next transaction. -/
theorem step_agent (s : CaptureIsolation.State) (c : Cycle) (who : Who) :
    (CaptureIsolation.step s c).agent who = s.agent who ∨ ∃ refill,
      (CaptureIsolation.step s c).agent who =
        ((s.agent who).transact refill s.hw.ctl s.hw.counter.done).2 := by
  unfold CaptureIsolation.step
  cases c.bus.turn with
  | none => exact .inl rfl
  | some turn =>
    obtain ⟨w, refill⟩ := turn
    by_cases hw : who = w
    · rw [hw]
      exact .inr ⟨refill, Function.update_self ..⟩
    · exact .inl (Function.update_of_ne hw ..)

theorem step_agent_of_ne (s : CaptureIsolation.State) (c : Cycle) {who : Who}
    (h : ∀ turn ∈ c.bus.turn, turn.1 ≠ who) :
    (CaptureIsolation.step s c).agent who = s.agent who := by
  unfold CaptureIsolation.step
  cases hturn : c.bus.turn with
  | none => rfl
  | some turn => exact Function.update_of_ne (h turn hturn).symm ..

theorem past_of_respectful (hidle : Idle s.sys) (h : Respectful ext2sc s inp T) (ht : t ≤ T)
    (who : Who) : Past ext2sc s inp t ((run ext2sc s inp t).sys.agent who) := by
  induction t with
  | zero =>
    have hpc : (s.sys.agent who).pc = .select := hidle who
    show Past ext2sc s inp 0 (s.sys.agent who)
    unfold Past
    rw [hpc]
    trivial
  | succ t ih =>
    have hpast := ih (Nat.le_of_succ_le ht)
    have hok := (inv_of_respectful hidle h (Nat.le_of_succ_le ht) who).1
    have hok' := (inv_of_respectful hidle h ht who).1
    have hstep : (run ext2sc s inp (t + 1)).sys =
        CaptureIsolation.step (run ext2sc s inp t).sys ((run ext2sc s inp t).cycle (inp t)) := rfl
    rcases step_agent (run ext2sc s inp t).sys ((run ext2sc s inp t).cycle (inp t)) who with
      hsame | ⟨refill, hact⟩
    · rw [← hstep] at hsame
      rw [hsame] at hok' ⊢
      exact hpast.wait hok'
    · rw [← hstep] at hact
      rw [hact] at hok' ⊢
      exact hpast.transact hok hok'

/-- The pulse and the selection are a capture of the design. -/
theorem started (hreset : Clocked.ResetFirst fun t => (inp t).rst) {dir : BitVec 32}
    (hpulsed : Pulsed ext2sc s inp f t) (hT : T ≤ t)
    (hselected : Selected ext2sc s inp dir (f - 2) T) :
    Pipeline.Started (logicInputs ext2sc s inp) dir f T where
  reset := ⟨hreset.rst_zero, hreset.rst_succ⟩
  start_high := hpulsed.2.1
  start_low u hfu hu := hpulsed.2.2 u hfu (hu.le.trans hT)
  select := hselected

theorem waitEnds_of_past (hreset : Clocked.ResetFirst fun t => (inp t).rst) {a : Agent}
    (h : Past ext2sc s inp t a) : WaitEnds ext2sc s inp t a := by
  intro hpc hmics
  unfold Past at h
  rw [hpc] at h
  obtain ⟨f, hpulsed, hselected⟩ := h hmics
  refine ⟨f, hpulsed, fun hlong => ?_⟩
  have hstarted := (started hreset hpulsed le_rfl hselected).mono hlong
  have hwords := @Pipeline.Started.done_of_long ext2sc s.logic _ a.dir f t hstarted hlong
    fun u hfu hu => hpulsed.2.2 u hfu hu.le
  rw [State.done, run_logic]
  exact hwords

theorem readsExact_of_past (hreset : Clocked.ResetFirst fun t => (inp t).rst) {a : Agent}
    (h : Past ext2sc s inp t a) : ReadsExact ext2sc s inp t a := by
  intro idx hpc
  unfold Past at h
  rw [hpc] at h
  obtain ⟨f, U, hfU, hU, hpulsed, hselected, hdone⟩ := h
  refine ⟨f, hpulsed, fun mic word hword => ?_⟩
  have hstarted := started hreset hpulsed hU hselected
  rw [State.done, run_logic] at hdone
  obtain ⟨-, hbram⟩ := Pipeline.bram_done hstarted.start_high hfU hdone hU
    fun v hUv hv => hpulsed.2.2 v (hfU.trans_le hUv) hv.le
  rw [run_logic, hbram]
  exact (hstarted.words_of_done hfU hdone mic).2 word hword

end Run

/-! ## The thread alone -/

/-- All registers cleared and both agents between sections. -/
def powerUp : State := ⟨CaptureIsolation.powerUp, Pipeline.cleared, rfl⟩

/-- The thread has the bus in every cycle, and the pins are high. -/
def alone (t : ℕ) : Input := ⟨t == 0, fun _ => true, .beam⟩

theorem alone_client (t : ℕ) :
    ((run (BitVec.signExtend 32) powerUp alone t).sys.agent .client).pc = .select := by
  induction t with
  | zero => rfl
  | succ t ih =>
    have hstep : (run (BitVec.signExtend 32) powerUp alone (t + 1)).sys =
        CaptureIsolation.step (run (BitVec.signExtend 32) powerUp alone t).sys
          ((run (BitVec.signExtend 32) powerUp alone t).cycle (alone t)) := rfl
    rw [hstep, step_agent_of_ne]
    · exact ih
    · intro turn hturn
      obtain rfl : (Who.beam, beamRound) = turn := Option.mem_some_iff.mp hturn
      exact fun h => Who.noConfusion h

theorem alone_respectful (T : ℕ) : Respectful (BitVec.signExtend 32) powerUp alone T := by
  intro t _ turn hturn
  obtain rfl : (Who.beam, beamRound) = turn := Option.mem_some_iff.mp hturn
  have hclient := alone_client t
  exact ⟨fun _ => by simp [Who.other, Agent.capturing, hclient],
    fun _ => by simp [Who.other, Agent.reading, hclient]⟩

end Recording
