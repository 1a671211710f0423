-- SUMMARY: The register-level model of delay_line.v and delay_module.v, and the sample each of the four outputs shows in every cycle.
import Mathlib.Data.Nat.Cast.Order.Basic
import Mathlib.Data.Int.Cast.Lemmas
import Mathlib.Data.Fin.VecNotation
import FpgaAcoustic.Signal.Clocked

/-!
# Delay module

Four delay lines share a sample strobe. `delay_select` picks a row of delays,
which reaches the read index of the lines through two registers.

Both modules reset asynchronously. The model samples `rst` with the clock, like
every other input.
-/

/-! ## Delay line -/

namespace DelayLine

def maxDelay : ℕ := 15

/-- The inputs of a cycle. -/
structure In where
  rst : Bool
  pcmValid : Bool
  delay : BitVec 4
  pcmData : BitVec 16
  deriving DecidableEq, Repr

structure Regs where
  buffer : Fin (maxDelay + 1) → BitVec 16
  delayReg : BitVec 4
  deriving Inhabited

def Regs.reset : Regs where
  buffer _ := 0#16
  delayReg := 0#4

/-- One rising edge of `clk`. -/
def step (s : Regs) (i : In) : Regs :=
  if i.rst then Regs.reset
  else
    { delayReg := i.delay
      buffer := fun k =>
        if i.pcmValid then
          if h : k.val = 0 then i.pcmData else s.buffer ⟨k.val - 1, by omega⟩
        else s.buffer k }

/-- `delayed_pcm_data`. -/
def Regs.delayedPcmData (s : Regs) : BitVec 16 := s.buffer ⟨s.delayReg.toNat, s.delayReg.isLt⟩

/-- The buffer after `n` samples of the stream `x`: entry `k` is the sample `k`
before the newest one. -/
def Holds (x : ℤ → BitVec 16) (n : ℕ) (s : Regs) : Prop := ∀ k, s.buffer k = x (n - 1 - k.val)

variable {x : ℤ → BitVec 16} {n : ℕ} {s : Regs} {i : In}

theorem Holds.reset (hx : ∀ k < 0, x k = 0#16) : Holds x 0 Regs.reset := by
  intro k
  exact (hx _ (by omega)).symm

theorem Holds.step_quiet (h : Holds x n s) (hrst : i.rst = false) (hv : i.pcmValid = false) :
    Holds x n (step s i) := by
  intro k
  simp only [step, hrst, hv, Bool.false_eq_true, if_false]
  exact h k

theorem Holds.step_valid (h : Holds x n s) (hrst : i.rst = false) (hv : i.pcmValid = true)
    (hdata : i.pcmData = x n) : Holds x (n + 1) (step s i) := by
  intro k
  obtain ⟨k, hk⟩ := k
  simp only [step, hrst, hv, Bool.false_eq_true, if_false, if_true]
  cases k with
  | zero => simp [hdata]
  | succ k =>
    rw [dif_neg (Nat.succ_ne_zero k), h]
    refine congrArg x ?_
    push_cast
    omega

/-- A line that takes a sample with every pulse holds the last ones. -/
theorem Holds.pulses {line : ℕ → Regs} {inp : ℕ → In} {takes : ℕ → Bool}
    (hline : ∀ t, 1 ≤ t → line (t + 1) = step (line t) (inp t))
    (hrst : ∀ t, 1 ≤ t → (inp t).rst = false)
    (htakes : ∀ t, 1 ≤ t → takes t = (inp t).pcmValid)
    (hdata : ∀ t, 1 ≤ t → takes t = true → (inp t).pcmData = x (Clocked.pulses takes t))
    (h : Holds x (Clocked.pulses takes 1) (line 1)) {t : ℕ} (ht : 1 ≤ t) :
    Holds x (Clocked.pulses takes t) (line t) := by
  induction t, ht using Nat.le_induction with
  | base => exact h
  | succ t ht ih =>
    rw [hline t ht]
    cases hv : takes t with
    | false =>
      rw [Clocked.pulses_succ_of_false hv]
      exact ih.step_quiet (hrst t ht) ((htakes t ht).symm.trans hv)
    | true =>
      rw [Clocked.pulses_succ_of_true hv]
      exact ih.step_valid (hrst t ht) ((htakes t ht).symm.trans hv) (hdata t ht hv)

end DelayLine

/-! ## Delay module -/

namespace DelayModule

/-- The slice `6 .. 0` of the `mic_select` register, as the three wires of
`mic_sel` take it. -/
def micSel (micSelect : BitVec 32) : BitVec 3 := (micSelect.extractLsb' 0 7).setWidth 3

/-- The inputs of a cycle. -/
structure In where
  rst : Bool
  delaySelect : BitVec 3
  pcmValid : Bool
  pcmData : Fin 4 → BitVec 16

structure Regs where
  micDelays : Fin 4 → BitVec 4
  lines : Fin 4 → DelayLine.Regs
  deriving Inhabited

/-- The row of `mic_delays` the case statement selects. -/
def delayRow (sel : BitVec 3) : Fin 4 → BitVec 4 :=
  match sel.toNat with
  -- M40 as source
  | 1 => ![0, 5, 8, 4]
  -- M46 as source
  | 2 => ![5, 0, 4, 8]
  -- M52 as source
  | 3 => ![8, 4, 0, 5]
  -- M58 as source
  | 4 => ![4, 8, 5, 0]
  | _ => ![0, 0, 0, 0]

/-- The inputs of the `j`-th delay line. -/
def lineIn (s : Regs) (i : In) (j : Fin 4) : DelayLine.In where
  rst := i.rst
  pcmValid := i.pcmValid
  delay := s.micDelays j
  pcmData := i.pcmData j

/-- One rising edge of `clk`. -/
def step (s : Regs) (i : In) : Regs where
  micDelays j := if i.rst then 0#4 else delayRow i.delaySelect j
  lines j := DelayLine.step (s.lines j) (lineIn s i j)

/-- `delayed_pcm_data_0 .. 3`. -/
def Regs.delayedPcmData (s : Regs) (j : Fin 4) : BitVec 16 := (s.lines j).delayedPcmData

/-- The state in each cycle of a run. -/
def run (s : Regs) (inp : ℕ → In) : ℕ → Regs := Clocked.run step s inp

/-- The cycles in which the lines take a sample. -/
def takes (inp : ℕ → In) (t : ℕ) : Bool := (inp t).pcmValid && !(inp t).rst

/-- The number of samples taken before cycle `t`. -/
def taken (inp : ℕ → In) (t : ℕ) : ℕ := Clocked.pulses (takes inp) t

/-- The run starts with a reset. -/
abbrev FromReset (inp : ℕ → In) : Prop := Clocked.ResetFirst fun t => (inp t).rst

/-- Channel `j` presents its samples in order, one with every strobe. -/
def Presents (inp : ℕ → In) (x : Fin 4 → ℤ → BitVec 16) : Prop :=
  ∀ t, takes inp t = true → ∀ j, (inp t).pcmData j = x j (taken inp t)

section Run

variable {s : Regs} {inp : ℕ → In} {x : Fin 4 → ℤ → BitVec 16} {t : ℕ}

theorem FromReset.taken_one (h : FromReset inp) : taken inp 1 = 0 := by
  have hrst : (inp 0).rst = true := h.rst_zero
  simp [taken, Clocked.pulses, takes, hrst]

/-- In every cycle each line holds the last samples of its channel. -/
theorem FromReset.holds (h : FromReset inp) (hx : ∀ j, ∀ k < 0, x j k = 0#16)
    (hdata : Presents inp x) (ht : 1 ≤ t) (j : Fin 4) :
    DelayLine.Holds (x j) (taken inp t) ((run s inp t).lines j) := by
  have hstart : DelayLine.Holds (x j) (taken inp 1) ((run s inp 1).lines j) := by
    have hrst : (inp 0).rst = true := h.rst_zero
    have hline : (run s inp 1).lines j = DelayLine.Regs.reset := by
      simp [run, Clocked.run, step, lineIn, DelayLine.step, hrst]
    rw [h.taken_one, hline]
    exact DelayLine.Holds.reset (hx j)
  have htakes : ∀ t, 1 ≤ t → takes inp t = (inp t).pcmValid := fun t ht => h.and_not _ ht
  exact @DelayLine.Holds.pulses (x j) (fun t => (run s inp t).lines j)
    (fun t => lineIn (run s inp t) (inp t) j) (takes inp) (fun _ _ => rfl) (fun _ => h.low) htakes
    (fun t _ ht => hdata t ht j) hstart t ht

/-- The read index of a line is the delay selected two cycles ago. -/
theorem FromReset.delayReg_eq (h : FromReset inp) (ht : 1 ≤ t) (j : Fin 4) :
    ((run s inp (t + 2)).lines j).delayReg = delayRow (inp t).delaySelect j := by
  have hrst : (inp t).rst = false := h.low ht
  have hrst' : (inp (t + 1)).rst = false := h.low (Nat.le_succ_of_le ht)
  have hline : ((run s inp (t + 2)).lines j).delayReg = (run s inp (t + 1)).micDelays j := by
    simp [run, Clocked.run_succ, step, lineIn, DelayLine.step, hrst']
  rw [hline]
  simp [run, Clocked.run_succ, step, hrst]

/-- Output `j` shows the sample that its selected delay puts behind the newest
one. -/
theorem FromReset.delayedPcmData_eq (h : FromReset inp) (hx : ∀ j, ∀ k < 0, x j k = 0#16)
    (hdata : Presents inp x) (ht : 1 ≤ t) (j : Fin 4) :
    (run s inp (t + 2)).delayedPcmData j =
      x j (taken inp (t + 2) - 1 - (delayRow (inp t).delaySelect j).toNat) := by
  have hholds := h.holds (s := s) hx hdata (Nat.le_add_left 1 (t + 1)) j
  unfold Regs.delayedPcmData DelayLine.Regs.delayedPcmData
  rw [hholds]
  simp only [h.delayReg_eq ht]

/-- Before the first sample the outputs are zero, whatever delay is selected. -/
theorem FromReset.delayedPcmData_of_none_taken (h : FromReset inp)
    (hx : ∀ j, ∀ k < 0, x j k = 0#16) (hdata : Presents inp x) (ht : 1 ≤ t)
    (hnone : taken inp t = 0) (j : Fin 4) : (run s inp t).delayedPcmData j = 0#16 := by
  have hholds := h.holds (s := s) hx hdata ht j
  rw [hnone] at hholds
  unfold Regs.delayedPcmData DelayLine.Regs.delayedPcmData
  rw [hholds]
  exact hx j _ (by omega)

end Run

end DelayModule
