-- SUMMARY: The register-level model of ws2812.v, and the pulses that it sends in each frame.
import Mathlib.Data.BitVec
import Mathlib.Data.Nat.Log
import Mathlib.Data.Nat.Prime.Basic
import FpgaAcoustic.Signal.PulseWidth

/-!
# WS2812 driver

The colours of the LEDs go out in frames: each bit is a pulse whose width says
what it is, from the last bit of the last LED down, and the line is low between
two frames. The colour is read one cycle late, which the first cycle of a bit
does not show because the line is high there for both widths.
-/

namespace Ws2812

open Clocked PulseWidth

/-- The parameters that the module is instantiated with. -/
structure Params where
  numLeds : ℕ
  clkMhz : ℕ

namespace Params

variable (P : Params)

/-! `$rtoi($ceil(..))` of a quotient of integers is the quotient. -/

def tOn : ℕ := P.clkMhz * 900 / 1000
def tOff : ℕ := P.clkMhz * 350 / 1000
def tReset : ℕ := P.clkMhz * 280
def tPeriod : ℕ := P.clkMhz * 1250 / 1000
def ledBits : ℕ := Nat.clog 2 P.numLeds
def countBits : ℕ := Nat.clog 2 P.tReset

/-- The width of `bit_counter > (t_period - t_on)`. -/
def width : ℕ := max P.countBits 32

end Params

def stateData : BitVec 2 := 0
def stateReset : BitVec 2 := 1

/-- The inputs of a cycle. -/
structure In where
  rgbData : BitVec 24
  ledNum : BitVec 8
  write : Bool
  reset : Bool

/-- The registers. A read of `led_reg` out of its range finds an arbitrary word. -/
structure Regs (ledBits countBits : ℕ) where
  ledReg : ℕ → BitVec 24
  ledCounter : BitVec ledBits
  bitCounter : BitVec countBits
  rgbCounter : BitVec 5
  state : BitVec 2
  ledColor : BitVec 24
  data : Bool

abbrev Params.Regs (P : Params) : Type := Ws2812.Regs P.ledBits P.countBits

section Module

variable {P : Params}

/-- `bit_counter > (t_period - width)`. -/
def above (width : ℕ) (bitCounter : BitVec P.countBits) : Bool :=
  (BitVec.ofNat P.width P.tPeriod - BitVec.ofNat P.width width).ult (bitCounter.setWidth P.width)

def stepReset (s : P.Regs) : P.Regs :=
  let next := { s with
    rgbCounter := 23
    ledCounter := BitVec.ofNat P.ledBits (P.numLeds - 1)
    data := false
    bitCounter := s.bitCounter - 1 }
  if s.bitCounter == 0 then
    { next with state := stateData, bitCounter := BitVec.ofNat P.countBits P.tPeriod }
  else next

/-- What `STATE_DATA` outputs. -/
def dataNext (s : P.Regs) : Bool :=
  if s.ledColor.getLsbD s.rgbCounter.toNat then above P.tOn s.bitCounter
  else above P.tOff s.bitCounter

def stepData (s : P.Regs) : P.Regs :=
  let next := { s with
    data := dataNext s
    bitCounter := s.bitCounter - 1 }
  if s.bitCounter == 0 then
    let next := { next with
      bitCounter := BitVec.ofNat P.countBits P.tPeriod
      rgbCounter := s.rgbCounter - 1 }
    if s.rgbCounter == 0 then
      let next := { next with
        ledCounter := s.ledCounter - 1
        bitCounter := BitVec.ofNat P.countBits P.tPeriod
        rgbCounter := 23 }
      if s.ledCounter == 0 then
        { next with
          state := stateReset
          ledCounter := BitVec.ofNat P.ledBits (P.numLeds - 1)
          bitCounter := BitVec.ofNat P.countBits P.tReset }
      else next
    else next
  else next

/-- The state machine. The words of `led_reg` are not reset, since
`NO_MEM_RESET` is defined whatever its value. -/
def stepState (s : P.Regs) (i : In) : P.Regs :=
  if i.reset then
    { s with
      state := stateReset
      bitCounter := BitVec.ofNat P.countBits P.tReset
      rgbCounter := 23
      ledCounter := BitVec.ofNat P.ledBits (P.numLeds - 1)
      data := false }
  else if s.state == stateReset then stepReset s
  else if s.state == stateData then stepData s
  else s

/-- One rising edge of `clk`. -/
def step (s : P.Regs) (i : In) : P.Regs :=
  { stepState s i with
    ledReg := if i.write && decide (i.ledNum.toNat < P.numLeds) then
        Function.update s.ledReg i.ledNum.toNat i.rgbData
      else s.ledReg
    ledColor := s.ledReg s.ledCounter.toNat }

/-- The state in each cycle of a run. -/
def run (s : P.Regs) (inp : ℕ → In) : ℕ → P.Regs := Clocked.run step s inp

theorem run_succ (s : P.Regs) (inp : ℕ → In) (t : ℕ) :
    run s inp (t + 1) = step (run s inp t) (inp t) := rfl

end Module

/-! ## Widths -/

namespace Params

variable (P : Params)

/-- The settings that the waveform is promised for. -/
structure Wf : Prop where
  numLeds : 2 ≤ P.numLeds
  tOff : 1 ≤ P.tOff
  tOff_lt : P.tOff < P.tOn
  tOn_le : P.tOn ≤ P.tPeriod

variable {P}

theorem tPeriod_lt (h : 1 ≤ P.tOff) : P.tPeriod < P.tReset := by
  unfold tOff at h
  unfold tPeriod tReset
  omega

/-- The counter holds `t_reset`: five divides it, so it is no power of two. -/
theorem tReset_lt (P : Params) : P.tReset < 2 ^ P.countBits := by
  refine lt_of_le_of_ne (Nat.le_pow_clog (by decide) _) fun heq => ?_
  have hfive : 5 ∣ 2 ^ P.countBits := heq ▸ Dvd.intro_left (P.clkMhz * 56) (by unfold tReset; omega)
  exact absurd (Nat.prime_five.dvd_of_dvd_pow hfive) (by decide)

theorem numLeds_lt (h : 2 ≤ P.numLeds) : P.numLeds - 1 < 2 ^ P.ledBits := by
  have hle : P.numLeds ≤ 2 ^ P.ledBits := Nat.le_pow_clog (by decide) _
  omega

end Params

section Words

variable {P : Params} {c : ℕ}

theorem toNat_sub_one {w : ℕ} {x : BitVec w} (h : x.toNat = c + 1) : (x - 1).toNat = c := by
  have hlt : 1 < 2 ^ w := (Nat.le_add_left 1 c).trans_lt (h ▸ x.isLt)
  have hone : (1 : BitVec w).toNat = 1 := by
    rw [BitVec.ofNat_eq_ofNat, BitVec.toNat_ofNat]
    exact Nat.mod_eq_of_lt hlt
  rw [BitVec.toNat_sub_of_le, hone, h, Nat.add_sub_cancel]
  rw [BitVec.le_def, hone, h]
  exact Nat.le_add_left 1 c

theorem eq_zero_iff {w : ℕ} (x : BitVec w) : (x == 0) = decide (x.toNat = 0) := by
  rw [Bool.eq_iff_iff, beq_iff_eq, decide_eq_true_iff, ← BitVec.toNat_inj]
  simp

/-- The comparison is one of numbers: nothing wraps around in its width. -/
theorem above_eq (hoff : 1 ≤ P.tOff) {width : ℕ} (hwidth : width ≤ P.tPeriod)
    (bitCounter : BitVec P.countBits) :
    above width bitCounter = decide (P.tPeriod - width < bitCounter.toNat) := by
  have hle : P.countBits ≤ P.width := Nat.le_max_left ..
  have hpow : 2 ^ P.countBits ≤ 2 ^ P.width := Nat.pow_le_pow_right (by decide) hle
  have hperiod : P.tPeriod < 2 ^ P.width :=
    (P.tPeriod_lt hoff).trans (P.tReset_lt.trans_le hpow)
  have hcount : bitCounter.toNat < 2 ^ P.width := bitCounter.isLt.trans_le hpow
  rw [above, BitVec.ult, BitVec.toNat_sub_of_le]
  · rw [BitVec.toNat_setWidth, BitVec.toNat_ofNat, BitVec.toNat_ofNat, Nat.mod_eq_of_lt hperiod,
      Nat.mod_eq_of_lt (hwidth.trans_lt hperiod), Nat.mod_eq_of_lt hcount]
  · rw [BitVec.le_def, BitVec.toNat_ofNat, BitVec.toNat_ofNat, Nat.mod_eq_of_lt hperiod,
      Nat.mod_eq_of_lt (hwidth.trans_lt hperiod)]
    exact hwidth

theorem toNat_tReset (P : Params) : (BitVec.ofNat P.countBits P.tReset).toNat = P.tReset := by
  rw [BitVec.toNat_ofNat]
  exact Nat.mod_eq_of_lt P.tReset_lt

theorem toNat_tPeriod (hoff : 1 ≤ P.tOff) :
    (BitVec.ofNat P.countBits P.tPeriod).toNat = P.tPeriod := by
  rw [BitVec.toNat_ofNat]
  exact Nat.mod_eq_of_lt ((P.tPeriod_lt hoff).trans P.tReset_lt)

theorem toNat_numLeds (hleds : 2 ≤ P.numLeds) :
    (BitVec.ofNat P.ledBits (P.numLeds - 1)).toNat = P.numLeds - 1 := by
  rw [BitVec.toNat_ofNat]
  exact Nat.mod_eq_of_lt (P.numLeds_lt hleds)

end Words

/-! ## One cycle -/

section Cycle

variable {P : Params} {s : P.Regs} {i : In} {m c : ℕ}

/-- Bit `m` of the frame goes out, with `c` further cycles of it to come. -/
structure At (m c : ℕ) (s : P.Regs) : Prop where
  state : s.state = stateData
  ledCounter : s.ledCounter.toNat = m / 24
  rgbCounter : s.rgbCounter.toNat = m % 24
  bitCounter : s.bitCounter.toNat = c

/-- The line is low, with `c` further cycles to come. -/
structure Idle (c : ℕ) (s : P.Regs) : Prop where
  state : s.state = stateReset
  bitCounter : s.bitCounter.toNat = c

theorem stepState_data (hi : i.reset = false) (h : s.state = stateData) :
    stepState s i = stepData s := by
  rw [stepState, hi, h]
  rfl

theorem stepState_reset (hi : i.reset = false) (h : s.state = stateReset) :
    stepState s i = stepReset s := by
  rw [stepState, hi, h]
  rfl

theorem At.tick (hi : i.reset = false) (h : At m (c + 1) s) : At m c (step s i) := by
  have hcount : (s.bitCounter == 0) = false := by
    rw [eq_zero_iff, h.bitCounter]
    rfl
  have hnext : stepState s i = { s with data := dataNext s, bitCounter := s.bitCounter - 1 } := by
    rw [stepState_data hi h.state, stepData, hcount]
    rfl
  rw [step, hnext]
  exact ⟨h.state, h.ledCounter, h.rgbCounter, toNat_sub_one h.bitCounter⟩

/-- After the last cycle of a bit comes the next lower one, which may be that of
the next lower LED. -/
theorem At.next (hoff : 1 ≤ P.tOff) (hi : i.reset = false) (h : At (m + 1) 0 s) :
    At m P.tPeriod (step s i) := by
  have hcount : (s.bitCounter == 0) = true := by
    rw [eq_zero_iff, h.bitCounter]
    rfl
  rw [step, stepState_data hi h.state, stepData, if_pos hcount]
  rcases Nat.eq_zero_or_pos ((m + 1) % 24) with hzero | hpos
  · have hrgb : (s.rgbCounter == 0) = true := by
      rw [eq_zero_iff, h.rgbCounter, hzero]
      rfl
    have hled : s.ledCounter.toNat = m / 24 + 1 := by
      rw [h.ledCounter]
      omega
    have hleds : (s.ledCounter == 0) = false := by
      rw [eq_zero_iff, hled]
      rfl
    have hbit : m % 24 = 23 := by omega
    rw [if_pos hrgb, hleds]
    exact ⟨h.state, toNat_sub_one hled, hbit.symm, toNat_tPeriod hoff⟩
  · have hbit : s.rgbCounter.toNat = m % 24 + 1 := by
      rw [h.rgbCounter]
      omega
    have hrgb : (s.rgbCounter == 0) = false := by
      rw [eq_zero_iff, hbit]
      rfl
    have hled : s.ledCounter.toNat = m / 24 := by
      rw [h.ledCounter]
      omega
    rw [hrgb]
    exact ⟨h.state, hled, toNat_sub_one hbit, toNat_tPeriod hoff⟩

theorem At.last (hi : i.reset = false) (h : At 0 0 s) : Idle P.tReset (step s i) := by
  have hcount : (s.bitCounter == 0) = true := by
    rw [eq_zero_iff, h.bitCounter]
    rfl
  have hrgb : (s.rgbCounter == 0) = true := by
    rw [eq_zero_iff, h.rgbCounter]
    rfl
  have hled : (s.ledCounter == 0) = true := by
    rw [eq_zero_iff, h.ledCounter]
    rfl
  rw [step, stepState_data hi h.state, stepData, if_pos hcount, if_pos hrgb, if_pos hled]
  exact ⟨rfl, toNat_tReset P⟩

theorem Idle.tick (hi : i.reset = false) (h : Idle (c + 1) s) : Idle c (step s i) := by
  have hcount : (s.bitCounter == 0) = false := by
    rw [eq_zero_iff, h.bitCounter]
    rfl
  rw [step, stepState_reset hi h.state, stepReset, hcount]
  exact ⟨h.state, toNat_sub_one h.bitCounter⟩

/-- A frame begins with the highest bit, whatever the counters have been. -/
theorem Idle.start (hP : P.Wf) (hi : i.reset = false) (h : Idle 0 s) :
    At (24 * P.numLeds - 1) P.tPeriod (step s i) := by
  have hcount : (s.bitCounter == 0) = true := by
    rw [eq_zero_iff, h.bitCounter]
    rfl
  have hleds := hP.numLeds
  have hled : P.numLeds - 1 = (24 * P.numLeds - 1) / 24 := by omega
  have hrgb : 23 = (24 * P.numLeds - 1) % 24 := by omega
  rw [step, stepState_reset hi h.state, stepReset, if_pos hcount]
  exact ⟨rfl, (toNat_numLeds hleds).trans hled, hrgb, toNat_tPeriod hP.tOff⟩

theorem idle_of_start (h : s.state = stateReset) (hdata : (step s i).state = stateData) :
    i.reset = false ∧ Idle 0 s := by
  have hne : stateReset ≠ stateData := by decide
  cases hi : i.reset with
  | true =>
    rw [step, stepState, if_pos hi] at hdata
    exact absurd hdata hne
  | false =>
    refine ⟨rfl, h, ?_⟩
    by_contra hpos
    have hcount : (s.bitCounter == 0) = false := by
      rw [eq_zero_iff]
      exact decide_eq_false hpos
    rw [step, stepState_reset hi h, stepReset, hcount] at hdata
    exact hne (h.symm.trans hdata)

theorem idle_of_reset (hi : i.reset = true) (s : P.Regs) : Idle P.tReset (step s i) := by
  rw [step, stepState, if_pos hi]
  exact ⟨rfl, toNat_tReset P⟩

theorem ledReg_step (hi : i.write = false) (s : P.Regs) : (step s i).ledReg = s.ledReg := by
  rw [step, hi]
  rfl

theorem ledColor_step (s : P.Regs) (i : In) : (step s i).ledColor = s.ledReg s.ledCounter.toNat := rfl

theorem Idle.data (hi : i.reset = false) (h : Idle c s) : (step s i).data = false := by
  show (stepState s i).data = false
  rw [stepState_reset hi h.state, stepReset]
  split <;> rfl

theorem At.data (hi : i.reset = false) (h : At m c s) : (step s i).data = dataNext s := by
  show (stepState s i).data = dataNext s
  rw [stepState_data hi h.state, stepData]
  split
  · split
    · split <;> rfl
    · rfl
  · rfl

end Cycle

/-! ## The waveform -/

/-- The code of the line. -/
def code {P : Params} (hP : P.Wf) : Code where
  off := P.tOff
  on := P.tOn
  period := P.tPeriod + 1
  off_pos := hP.tOff
  off_lt_on := hP.tOff_lt
  on_lt_period := Nat.lt_succ_of_le hP.tOn_le

/-- The bits of a frame from number `m - 1` down to `0`. -/
def bitsBelow (mem : ℕ → BitVec 24) (m : ℕ) : List Bool :=
  (List.range m).reverse.map fun k => (mem (k / 24)).getLsbD (k % 24)

/-- The bits of a frame: those of each LED from the last one down, from bit 23 down. -/
def frameBits (numLeds : ℕ) (mem : ℕ → BitVec 24) : List Bool :=
  (List.range numLeds).reverse.flatMap fun j => (List.range 24).reverse.map fun b => (mem j).getLsbD b

theorem bitsBelow_succ (mem : ℕ → BitVec 24) (m : ℕ) :
    bitsBelow mem (m + 1) = (mem (m / 24)).getLsbD (m % 24) :: bitsBelow mem m := by
  simp [bitsBelow, List.range_succ]

theorem frameBits_eq (numLeds : ℕ) (mem : ℕ → BitVec 24) :
    frameBits numLeds mem = bitsBelow mem (24 * numLeds) := by
  induction numLeds with
  | zero => rfl
  | succ n ih =>
    have hled : ((List.range 24).map fun k => 24 * n + k).reverse.map
        (fun k => (mem (k / 24)).getLsbD (k % 24)) =
        (List.range 24).reverse.map fun b => (mem n).getLsbD b := by
      rw [← List.map_reverse, List.map_map]
      refine List.map_congr_left fun b hb => ?_
      rw [List.mem_reverse, List.mem_range] at hb
      have hdiv : (24 * n + b) / 24 = n := by omega
      have hmod : (24 * n + b) % 24 = b := by omega
      show (mem ((24 * n + b) / 24)).getLsbD ((24 * n + b) % 24) = _
      rw [hdiv, hmod]
    have hsucc : frameBits (n + 1) mem =
        ((List.range 24).reverse.map fun b => (mem n).getLsbD b) ++ frameBits n mem := by
      simp [frameBits, List.range_succ]
    rw [hsucc, ih, bitsBelow, bitsBelow, Nat.mul_add, Nat.mul_one, List.range_add,
      List.reverse_append, List.map_append, hled]

/-- The cycles of `STATE_DATA` in a frame. -/
def Params.dataCycles (P : Params) : ℕ := 24 * P.numLeds * (P.tPeriod + 1)

/-- The cycles from one start of `STATE_DATA` to the next. -/
def Params.frameCycles (P : Params) : ℕ := P.dataCycles + (P.tReset + 1)

def waveform {P : Params} (hP : P.Wf) (mem : ℕ → BitVec 24) : List Bool :=
  (code hP).encode (frameBits P.numLeds mem) ++ List.replicate (P.tReset + 1) false

section Frame

variable {P : Params} {s : P.Regs} {inp : ℕ → In} {mem : ℕ → BitVec 24} {m t f T : ℕ}

/-- The output in each cycle. -/
def line (s : P.Regs) (inp : ℕ → In) (t : ℕ) : Bool := (run s inp t).data

/-- There is no reset in the cycles `f .. T - 1`. -/
def NoReset (inp : ℕ → In) (f T : ℕ) : Prop := ∀ u, f ≤ u → u < T → (inp u).reset = false

/-- The words of the LEDs are those of `mem` in the cycles `f .. T - 1`. -/
def Unchanged (s : P.Regs) (inp : ℕ → In) (mem : ℕ → BitVec 24) (f T : ℕ) : Prop :=
  ∀ u, f ≤ u → u < T → ∀ j, j < P.numLeds → (run s inp u).ledReg j = mem j

/-- The comparison with the counter, which runs down, is one with the cycles that
have passed. -/
theorem At.dataNext_eq (hP : P.Wf) {s : P.Regs} {k : ℕ} (h : At m (P.tPeriod - k) s)
    (hk : k ≤ P.tPeriod) :
    dataNext s = decide (k < (code hP).width (s.ledColor.getLsbD (m % 24))) := by
  have habove : ∀ width, width ≤ P.tPeriod → above width s.bitCounter = decide (k < width) := by
    intro width hwidth
    rw [above_eq hP.tOff hwidth, h.bitCounter, decide_eq_decide]
    omega
  rw [dataNext, h.rgbCounter]
  cases s.ledColor.getLsbD (m % 24) with
  | false => exact habove P.tOff (hP.tOff_lt.le.trans hP.tOn_le)
  | true => exact habove P.tOn hP.tOn_le

theorem at_of_bit (hreset : NoReset inp f T) (hf : f ≤ t) (hT : t + P.tPeriod ≤ T)
    (h : At m P.tPeriod (run s inp t)) {k : ℕ} (hk : k ≤ P.tPeriod) :
    At m (P.tPeriod - k) (run s inp (t + k)) := by
  induction k with
  | zero => exact h
  | succ k ih =>
    have hat := ih (Nat.le_of_succ_le hk)
    have hcount : P.tPeriod - k = P.tPeriod - (k + 1) + 1 := by omega
    rw [hcount] at hat
    exact hat.tick (hreset (t + k) (by omega) (by omega))

/-- One bit is one pulse. The colour read in its first cycle may be that of the
LED before, and from the second cycle on it is the right one. -/
theorem span_bit (hP : P.Wf) (hreset : NoReset inp f T) (hmem : Unchanged s inp mem f T)
    (hf : f ≤ t) (hT : t + (P.tPeriod + 1) ≤ T) (hm : m < 24 * P.numLeds)
    (h : At m P.tPeriod (run s inp t)) :
    span (line s inp) (t + 1) (P.tPeriod + 1) =
      (code hP).pulse ((mem (m / 24)).getLsbD (m % 24)) := by
  refine (code hP).span_eq_pulse fun k hk => ?_
  have hle : k ≤ P.tPeriod := Nat.le_of_lt_succ hk
  have hat := at_of_bit hreset hf (by omega) h hle
  have hdata := hat.data (i := inp (t + k)) (hreset _ (by omega) (by omega))
  rw [hat.dataNext_eq hP hle] at hdata
  have hline : line s inp (t + 1 + k) = (step (run s inp (t + k)) (inp (t + k))).data := by
    rw [Nat.add_right_comm]
    rfl
  rw [hline, hdata]
  cases k with
  | zero =>
    exact (decide_eq_true ((code hP).width_pos _)).trans
      (decide_eq_true ((code hP).width_pos _)).symm
  | succ k =>
    have hprev := at_of_bit hreset hf (by omega) h (Nat.le_of_succ_le hle)
    have hcolor : (run s inp (t + (k + 1))).ledColor = mem (m / 24) := by
      rw [← Nat.add_assoc, run_succ, ledColor_step, hprev.ledCounter]
      exact hmem _ (by omega) (by omega) _ (by omega)
    rw [hcolor]

/-- What the line does while bits `m` down to `0` go out. -/
structure Sends (hP : P.Wf) (s : P.Regs) (inp : ℕ → In) (mem : ℕ → BitVec 24) (m t : ℕ) : Prop where
  line : span (line s inp) (t + 1) ((m + 1) * (P.tPeriod + 1)) =
    (code hP).encode (bitsBelow mem (m + 1))
  state : ∀ u, t ≤ u → u < t + (m + 1) * (P.tPeriod + 1) → (run s inp u).state = stateData
  idle : Idle P.tReset (run s inp (t + (m + 1) * (P.tPeriod + 1)))

theorem state_of_bit (hreset : NoReset inp f T) (hf : f ≤ t) (hT : t + P.tPeriod ≤ T)
    (h : At m P.tPeriod (run s inp t)) {u : ℕ} (htu : t ≤ u) (hu : u < t + (P.tPeriod + 1)) :
    (run s inp u).state = stateData := by
  obtain ⟨k, rfl⟩ := Nat.exists_eq_add_of_le htu
  exact (at_of_bit hreset hf hT h (by omega : k ≤ P.tPeriod)).state

/-- Induction on the bits that are left. -/
theorem sends_of_at (hP : P.Wf) (hreset : NoReset inp f T) (hmem : Unchanged s inp mem f T)
    (hm : m < 24 * P.numLeds) (hf : f ≤ t) (hT : t + (m + 1) * (P.tPeriod + 1) ≤ T)
    (h : At m P.tPeriod (run s inp t)) : Sends hP s inp mem m t := by
  induction m generalizing t with
  | zero =>
    rw [Nat.zero_add, Nat.one_mul] at hT
    have hend := at_of_bit hreset hf (by omega) h le_rfl
    rw [Nat.sub_self] at hend
    refine ⟨?_, ?_, ?_⟩
    · rw [Nat.zero_add, Nat.one_mul, bitsBelow_succ, Code.encode_cons,
        span_bit hP hreset hmem hf hT hm h]
      exact (List.append_nil _).symm
    · rw [Nat.zero_add, Nat.one_mul]
      intro u htu hu
      exact state_of_bit hreset hf (by omega) h htu hu
    · rw [Nat.zero_add, Nat.one_mul]
      exact hend.last (hreset (t + P.tPeriod) (by omega) (by omega))
  | succ m ih =>
    have hsplit : (m + 1 + 1) * (P.tPeriod + 1) =
        P.tPeriod + 1 + (m + 1) * (P.tPeriod + 1) := by
      rw [Nat.succ_mul, Nat.add_comm]
    rw [hsplit] at hT
    have hend := at_of_bit hreset hf (by omega) h le_rfl
    rw [Nat.sub_self] at hend
    have hnext : At m P.tPeriod (run s inp (t + (P.tPeriod + 1))) :=
      hend.next hP.tOff (hreset (t + P.tPeriod) (by omega) (by omega))
    have hrest := ih (t := t + (P.tPeriod + 1)) (by omega) (by omega) (by omega) hnext
    refine ⟨?_, ?_, ?_⟩
    · rw [hsplit, span_add, span_bit hP hreset hmem hf (by omega) hm h, Nat.add_right_comm,
        hrest.line, ← Code.encode_cons, ← bitsBelow_succ]
    · rw [hsplit]
      intro u htu hu
      rcases Nat.lt_or_ge u (t + (P.tPeriod + 1)) with hlt | hge
      · exact state_of_bit hreset hf (by omega) h htu hlt
      · exact hrest.state u hge (by omega)
    · rw [hsplit, ← Nat.add_assoc]
      exact hrest.idle

theorem idle_of_idle (hreset : NoReset inp f T) (hf : f ≤ t) (hT : t + P.tReset ≤ T)
    (h : Idle P.tReset (run s inp t)) {k : ℕ} (hk : k ≤ P.tReset) :
    Idle (P.tReset - k) (run s inp (t + k)) := by
  induction k with
  | zero => exact h
  | succ k ih =>
    have hidle := ih (Nat.le_of_succ_le hk)
    have hcount : P.tReset - k = P.tReset - (k + 1) + 1 := by omega
    rw [hcount] at hidle
    exact hidle.tick (hreset (t + k) (by omega) (by omega))

theorem span_idle (hreset : NoReset inp f T) (hf : f ≤ t) (hT : t + (P.tReset + 1) ≤ T)
    (h : Idle P.tReset (run s inp t)) :
    span (line s inp) (t + 1) (P.tReset + 1) = List.replicate (P.tReset + 1) false := by
  refine span_eq_replicate fun k hk => ?_
  have hidle := idle_of_idle hreset hf (by omega) h (Nat.le_of_lt_succ hk)
  rw [Nat.add_right_comm]
  exact hidle.data (hreset _ (by omega) (by omega))

/-- `STATE_DATA` starts in cycle `u`. -/
def Starts (s : P.Regs) (inp : ℕ → In) (u : ℕ) : Prop :=
  ∃ t, u = t + 1 ∧ (run s inp t).state = stateReset ∧ (run s inp u).state = stateData

theorem Starts.at (hP : P.Wf) {u : ℕ} (h : Starts s inp u) :
    At (24 * P.numLeds - 1) P.tPeriod (run s inp u) := by
  obtain ⟨t, rfl, hbefore, hstart⟩ := h
  obtain ⟨hi, hidle⟩ := idle_of_start hbefore hstart
  exact hidle.start hP hi

/-- `STATE_DATA` starts when the line has been low for long enough. -/
theorem starts_of_idle (hP : P.Wf) (hreset : NoReset inp f T) (hf : f ≤ t)
    (hT : t + (P.tReset + 1) ≤ T) (h : Idle P.tReset (run s inp t)) :
    Starts s inp (t + P.tReset + 1) := by
  have hend := idle_of_idle hreset hf (by omega) h le_rfl
  rw [Nat.sub_self] at hend
  refine ⟨t + P.tReset, rfl, hend.state, ?_⟩
  rw [run_succ]
  exact (hend.start hP (hreset (t + P.tReset) (by omega) (by omega))).state

/-- While the bits go out and the line is low after them, `STATE_DATA` does not
start again. -/
theorem not_starts_before {u v : ℕ} (hreset : NoReset inp f T) (hf : f ≤ t)
    (hT : t + P.tReset ≤ T)
    (hstate : ∀ v, u ≤ v → v < t → (run s inp v).state = stateData)
    (hidle : Idle P.tReset (run s inp t)) (huv : u < v) (hv : v ≤ t + P.tReset) :
    ¬ Starts s inp v := by
  rintro ⟨w, rfl, hbefore, hafter⟩
  have hne : stateData ≠ stateReset := by decide
  rcases Nat.lt_or_ge w t with hlt | hge
  · exact hne ((hstate w (Nat.le_of_lt_succ huv) hlt).symm.trans hbefore)
  · obtain ⟨k, hk⟩ := Nat.exists_eq_add_of_le (hge.trans (Nat.le_succ w))
    have hlow := (idle_of_idle hreset hf hT hidle (by omega : k ≤ P.tReset)).state
    rw [← hk] at hlow
    exact hne (hafter.symm.trans hlow)

/-- From its start on, `STATE_DATA` sends all bits. -/
theorem Starts.sends (hP : P.Wf) {u : ℕ} (hstart : Starts s inp u)
    (hreset : NoReset inp u (u + P.dataCycles))
    (hmem : Unchanged s inp mem u (u + P.dataCycles)) :
    span (line s inp) (u + 1) P.dataCycles = (code hP).encode (frameBits P.numLeds mem) ∧
      (∀ v, u ≤ v → v < u + P.dataCycles → (run s inp v).state = stateData) ∧
      Idle P.tReset (run s inp (u + P.dataCycles)) := by
  have hleds := hP.numLeds
  have hbits : 24 * P.numLeds - 1 + 1 = 24 * P.numLeds := by omega
  have hsends : Sends hP s inp mem (24 * P.numLeds - 1) u :=
    sends_of_at hP hreset hmem (by omega) le_rfl (by rw [hbits, Params.dataCycles]) (hstart.at hP)
  obtain ⟨hline, hstate, hidle⟩ := hsends
  rw [hbits, ← Params.dataCycles] at hline hstate hidle
  rw [← frameBits_eq] at hline
  exact ⟨hline, hstate, hidle⟩

theorem ledReg_run (hwrite : ∀ u, (inp u).write = false) (s : P.Regs) (t : ℕ) :
    (run s inp t).ledReg = s.ledReg := by
  induction t with
  | zero => rfl
  | succ t ih => rw [run_succ, ledReg_step (hwrite t), ih]

end Frame

/-- Two LEDs at 12 MHz. -/
def two : Params := ⟨2, 12⟩

theorem two_wf : two.Wf where
  numLeds := le_rfl
  tOff := by decide
  tOff_lt := by decide
  tOn_le := by decide

/-- A red LED and a green one. -/
def redGreen : two.Regs where
  ledReg j := if j = 0 then 0xff0000#24 else 0x00ff00#24
  ledCounter := 0
  bitCounter := 0
  rgbCounter := 0
  state := 0
  ledColor := 0
  data := true

/-- A reset and no writes. -/
def resetOnce (t : ℕ) : In := ⟨0, 0, false, t == 0⟩

end Ws2812
