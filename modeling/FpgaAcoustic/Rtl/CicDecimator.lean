-- SUMMARY: The register-level model of cic_decimator.v: synchroniser, decimation counter, integrators, combs and saturating output.
import Mathlib.Data.BitVec
import FpgaAcoustic.Signal.Clocked

/-!
# CIC decimator

One `step` is one rising edge of `clk`. Every `always` block of the module
reads the registers before the edge, so the blocks of one edge are functions of
the same old state.
-/

/-! ## Parameters -/

/-- `clog2` of the module: the number of right shifts that bring `value - 1` to
zero. The first argument of the loop bounds its passes. -/
def clog2.loop : ℕ → ℕ → ℕ
  | 0, _ => 0
  | fuel + 1, v => if 0 < v then clog2.loop fuel (v >>> 1) + 1 else 0

def clog2 (value : ℕ) : ℕ := clog2.loop value (value - 1)

theorem clog2.lt_loop {fuel v : ℕ} (h : v ≤ fuel) : v < 2 ^ clog2.loop fuel v := by
  induction fuel generalizing v with
  | zero => simp [clog2.loop, Nat.le_zero.mp h]
  | succ fuel ih =>
    unfold clog2.loop
    split
    · have hhalf : v >>> 1 ≤ fuel := by rw [Nat.shiftRight_eq_div_pow]; omega
      have := ih hhalf
      rw [Nat.shiftRight_eq_div_pow] at this
      rw [pow_succ, Nat.shiftRight_eq_div_pow]
      omega
    · simp_all

/-- `clog2` many bits hold every number below `value`. -/
theorem le_two_pow_clog2 {value : ℕ} (h : 1 ≤ value) : value ≤ 2 ^ clog2 value := by
  have := @clog2.lt_loop value (value - 1) (Nat.sub_le _ _)
  unfold clog2
  omega

namespace CicDecimator

/-- The parameters of an instance, within the range the module is written for. -/
structure Params where
  dataWidth : ℕ
  cicStages : ℕ
  cicDecimation : ℕ
  two_le_dataWidth : 2 ≤ dataWidth
  one_le_cicStages : 1 ≤ cicStages
  two_le_cicDecimation : 2 ≤ cicDecimation

namespace Params

def cicBitGrowth (P : Params) : ℕ := P.cicStages * clog2 P.cicDecimation
def internalWidth (P : Params) : ℕ := P.dataWidth + P.cicBitGrowth
def counterWidth (P : Params) : ℕ := clog2 P.cicDecimation

theorem dataWidth_le_internalWidth (P : Params) : P.dataWidth ≤ P.internalWidth :=
  Nat.le_add_right _ _

/-- The last stage of the integrator and comb arrays. -/
def lastStage (P : Params) : Fin P.cicStages :=
  ⟨P.cicStages - 1, Nat.sub_lt P.one_le_cicStages Nat.one_pos⟩

end Params

/-- The inputs of a cycle. -/
structure In where
  rst : Bool
  pdmClk : Bool
  pdmData : Bool
  deriving DecidableEq, Repr

/-- The registers. -/
structure Regs (P : Params) where
  pdmClkSync1 : Bool
  pdmClkSync2 : Bool
  pdmDataSync1 : Bool
  pdmDataSync2 : Bool
  pdmClkPrev : Bool
  decimationCounter : BitVec P.counterWidth
  integrator : Fin P.cicStages → BitVec P.internalWidth
  integratorOut : BitVec P.internalWidth
  combDelay : Fin P.cicStages → BitVec P.internalWidth
  combOutput : Fin P.cicStages → BitVec P.internalWidth
  cicFinalOutput : BitVec P.internalWidth
  overflowFlag : Bool
  pcmValid : Bool
  pcmData : BitVec P.dataWidth
  overflow : Bool
  sampleCount : BitVec 16
  deriving Inhabited

variable {P : Params}

namespace Regs

/-! ## Wires -/

def pdmStrobe (s : Regs P) : Bool := s.pdmClkSync2 && !s.pdmClkPrev

/-- `1` is `+1` and `0` is `-1`. -/
def pdmSigned (s : Regs P) : BitVec P.internalWidth :=
  if s.pdmDataSync2 then 1#P.internalWidth else BitVec.allOnes P.internalWidth

def cicStrobeIn (s : Regs P) : Bool := s.pdmStrobe

def cicStrobeOut (s : Regs P) : Bool :=
  s.cicStrobeIn && s.decimationCounter.toNat == P.cicDecimation - 1

/-! ## Register updates outside reset -/

def nextDecimationCounter (s : Regs P) : BitVec P.counterWidth :=
  if s.cicStrobeIn then
    if s.decimationCounter.toNat == P.cicDecimation - 1 then 0#P.counterWidth
    else s.decimationCounter + 1#P.counterWidth
  else s.decimationCounter

def nextIntegrator (s : Regs P) (i : Fin P.cicStages) : BitVec P.internalWidth :=
  if s.cicStrobeIn then
    if i.val = 0 then s.integrator i + s.pdmSigned
    else s.integrator i + s.integrator ⟨i.val - 1, by omega⟩
  else s.integrator i

def nextIntegratorOut (s : Regs P) : BitVec P.internalWidth :=
  if s.cicStrobeIn then s.integrator P.lastStage else s.integratorOut

/-- What stage `i` of the comb section subtracts its delay register from. -/
def combInput (s : Regs P) (i : Fin P.cicStages) : BitVec P.internalWidth :=
  if i.val = 0 then s.integratorOut else s.combOutput ⟨i.val - 1, by omega⟩

def nextCombOutput (s : Regs P) (i : Fin P.cicStages) : BitVec P.internalWidth :=
  if s.cicStrobeOut then s.combInput i - s.combDelay i else s.combOutput i

def nextCombDelay (s : Regs P) (i : Fin P.cicStages) : BitVec P.internalWidth :=
  if s.cicStrobeOut then s.combInput i else s.combDelay i

/-- The largest and the smallest sample, the two literals of the output
section. -/
def pcmMax (P : Params) : BitVec P.dataWidth := BitVec.intMax P.dataWidth
def pcmMin (P : Params) : BitVec P.dataWidth := BitVec.intMin P.dataWidth

/-- The signed comparisons of `cic_final_output` with the two literals, which
the expression extends to the internal width. -/
def tooHigh (v : BitVec P.internalWidth) : Bool := ((pcmMax P).signExtend P.internalWidth).slt v
def tooLow (v : BitVec P.internalWidth) : Bool := v.slt ((pcmMin P).signExtend P.internalWidth)

/-- The sample the output section registers for the comb value `v`. -/
def saturate (v : BitVec P.internalWidth) : BitVec P.dataWidth :=
  if tooHigh v then pcmMax P else if tooLow v then pcmMin P else v.setWidth P.dataWidth

/-- The output section assigns `cic_final_output` with `=` and reads it in the
same edge. -/
def nextCicFinalOutput (s : Regs P) : BitVec P.internalWidth :=
  if s.cicStrobeOut then s.combOutput P.lastStage else s.cicFinalOutput

def nextPcmData (s : Regs P) : BitVec P.dataWidth :=
  if s.cicStrobeOut then saturate s.nextCicFinalOutput else s.pcmData

def nextOverflowFlag (s : Regs P) : Bool :=
  if s.cicStrobeOut then tooHigh s.nextCicFinalOutput || tooLow s.nextCicFinalOutput
  else s.overflowFlag

/-- The state after an edge with `rst` high. `cic_final_output` has no reset. -/
def reset (s : Regs P) : Regs P where
  pdmClkSync1 := false
  pdmClkSync2 := false
  pdmDataSync1 := false
  pdmDataSync2 := false
  pdmClkPrev := false
  decimationCounter := 0#P.counterWidth
  integrator _ := 0#P.internalWidth
  integratorOut := 0#P.internalWidth
  combDelay _ := 0#P.internalWidth
  combOutput _ := 0#P.internalWidth
  cicFinalOutput := s.cicFinalOutput
  overflowFlag := false
  pcmValid := false
  pcmData := 0#P.dataWidth
  overflow := false
  sampleCount := 0#16

/-- The state after an edge with `rst` low. -/
def advance (s : Regs P) (i : In) : Regs P where
  pdmClkSync1 := i.pdmClk
  pdmClkSync2 := s.pdmClkSync1
  pdmDataSync1 := i.pdmData
  pdmDataSync2 := s.pdmDataSync1
  pdmClkPrev := s.pdmClkSync2
  decimationCounter := s.nextDecimationCounter
  integrator := s.nextIntegrator
  integratorOut := s.nextIntegratorOut
  combDelay := s.nextCombDelay
  combOutput := s.nextCombOutput
  cicFinalOutput := s.nextCicFinalOutput
  overflowFlag := s.nextOverflowFlag
  pcmValid := s.cicStrobeOut
  pcmData := s.nextPcmData
  overflow := s.overflowFlag || s.overflow
  sampleCount := if s.cicStrobeOut then s.sampleCount + 1#16 else s.sampleCount

end Regs

/-- One rising edge of `clk`. -/
def step (s : Regs P) (i : In) : Regs P := if i.rst then s.reset else s.advance i

@[simp] theorem step_of_rst {s : Regs P} {i : In} (h : i.rst = true) : step s i = s.reset := by
  simp [step, h]

@[simp] theorem step_of_not_rst {s : Regs P} {i : In} (h : i.rst = false) :
    step s i = s.advance i := by
  simp [step, h]

/-- The run of an instance: the state in each cycle. -/
def run (s : Regs P) (inp : ℕ → In) : ℕ → Regs P := Clocked.run step s inp

/-- The run starts with a reset. -/
abbrev FromReset (inp : ℕ → In) : Prop := Clocked.ResetFirst fun t => (inp t).rst

theorem FromReset.run_one {inp : ℕ → In} (h : FromReset inp) (s : Regs P) :
    run s inp 1 = s.reset := by
  have hrst : (inp 0).rst = true := h.rst_zero
  simp only [run, Clocked.run, step_of_rst hrst]

theorem FromReset.run_succ {inp : ℕ → In} (h : FromReset inp) (s : Regs P) {t : ℕ} (ht : 1 ≤ t) :
    run s inp (t + 1) = (run s inp t).advance (inp t) :=
  step_of_not_rst (h.low ht)

end CicDecimator
