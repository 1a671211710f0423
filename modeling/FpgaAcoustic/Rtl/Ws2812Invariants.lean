-- SUMMARY: The assertions of ws2812.v, in every state that a reset leads to.
import FpgaAcoustic.Rtl.Ws2812

/-!
# Invariants of the WS2812 driver

The module carries a block of assertions that is commented out. They hold: the
counters run down to zero and are loaded again in the same edge, and the last
cycle of a frame outputs a low level, since no width is above a counter of zero.
-/

namespace Ws2812

variable {P : Params}

/-! ## Specification -/

/-- The assertions about one state. -/
structure InRange (s : P.Regs) : Prop where
  state : s.state = stateData ∨ s.state = stateReset
  bitCounter : s.bitCounter.toNat ≤ P.tReset
  rgbCounter : s.rgbCounter.toNat ≤ 23
  ledCounter : s.ledCounter.toNat ≤ P.numLeds - 1
  bitCounter_data : s.state = stateData → s.bitCounter.toNat ≤ P.tPeriod
  data_reset : s.state = stateReset → s.data = false

/-- The cycle is the last one of the last bit of an LED. -/
structure LastBit (s : P.Regs) : Prop where
  state : s.state = stateData
  rgbCounter : s.rgbCounter = 0
  bitCounter : s.bitCounter = 0

/-- The state after a reset. -/
structure Cleared (s : P.Regs) : Prop where
  state : s.state = stateReset
  bitCounter : s.bitCounter.toNat = P.tReset
  rgbCounter : s.rgbCounter.toNat = 23

/-- The assertions about one cycle and the next. -/
structure Steps (s : P.Regs) (i : In) (next : P.Regs) : Prop where
  cleared : i.reset = true → Cleared next
  ledCounter : LastBit s → next.state = stateData →
    next.ledCounter.toNat + 1 = s.ledCounter.toNat
  written : i.write = true → i.ledNum.toNat < P.numLeds → next.ledReg i.ledNum.toNat = i.rgbData

/-! ## One cycle -/

section Cycle

variable {s : P.Regs} {i : In}

theorem toNat_sub_one_le {w : ℕ} {x : BitVec w} (h : (x == 0) = false) : (x - 1).toNat ≤ x.toNat := by
  rw [eq_zero_iff, decide_eq_false_iff_not] at h
  obtain ⟨c, hc⟩ := Nat.exists_eq_add_one_of_ne_zero h
  rw [toNat_sub_one hc, hc]
  exact Nat.le_succ c

/-- At zero the output is low for either width. -/
theorem dataNext_of_zero (h : s.bitCounter = 0) : dataNext s = false := by
  have hlow : ∀ width, above width s.bitCounter = false := by
    intro width
    rw [above, h, BitVec.ult, decide_eq_false_iff_not]
    simp
  rw [dataNext, hlow, hlow, ite_self]

theorem InRange.of_reset (hleds : 2 ≤ P.numLeds) (hi : i.reset = true) (s : P.Regs) :
    InRange (stepState s i) := by
  rw [stepState, if_pos hi]
  exact ⟨.inr rfl, (toNat_tReset P).le, le_rfl, (toNat_numLeds hleds).le,
    fun h => absurd h (by simp [stateReset, stateData]), fun _ => rfl⟩

theorem InRange.stepReset (hleds : 2 ≤ P.numLeds) (hoff : 1 ≤ P.tOff) (h : InRange s)
    (hstate : s.state = stateReset) : InRange (stepReset s) := by
  have hperiod := (P.tPeriod_lt hoff).le
  have hne : stateData ≠ stateReset := by decide
  rw [Ws2812.stepReset]
  cases hcount : s.bitCounter == 0 with
  | true =>
    exact ⟨.inl rfl, (toNat_tPeriod hoff).trans_le hperiod, le_rfl, (toNat_numLeds hleds).le,
      fun _ => (toNat_tPeriod hoff).le, fun _ => rfl⟩
  | false =>
    refine ⟨.inr hstate, (toNat_sub_one_le hcount).trans h.bitCounter, le_rfl,
      (toNat_numLeds hleds).le, fun hdata => ?_, fun _ => rfl⟩
    exact absurd (Eq.trans hdata.symm hstate) hne

theorem InRange.stepData (hleds : 2 ≤ P.numLeds) (hoff : 1 ≤ P.tOff) (h : InRange s)
    (hstate : s.state = stateData) : InRange (stepData s) := by
  have hperiod := (P.tPeriod_lt hoff).le
  have hne : stateData ≠ stateReset := by decide
  have hload : (BitVec.ofNat P.countBits P.tPeriod).toNat ≤ P.tReset :=
    (toNat_tPeriod hoff).trans_le hperiod
  rw [Ws2812.stepData]
  cases hcount : s.bitCounter == 0 with
  | false =>
    have hle := toNat_sub_one_le hcount
    exact ⟨.inl hstate, hle.trans h.bitCounter, h.rgbCounter, h.ledCounter,
      fun _ => hle.trans (h.bitCounter_data hstate),
      fun hreset => absurd (Eq.trans hstate.symm hreset) hne⟩
  | true =>
    rw [if_pos rfl]
    cases hrgb : s.rgbCounter == 0 with
    | false =>
      exact ⟨.inl hstate, hload, (toNat_sub_one_le hrgb).trans h.rgbCounter, h.ledCounter,
        fun _ => (toNat_tPeriod hoff).le,
        fun hreset => absurd (Eq.trans hstate.symm hreset) hne⟩
    | true =>
      rw [if_pos rfl]
      cases hled : s.ledCounter == 0 with
      | false =>
        exact ⟨.inl hstate, hload, le_rfl, (toNat_sub_one_le hled).trans h.ledCounter,
          fun _ => (toNat_tPeriod hoff).le,
          fun hreset => absurd (Eq.trans hstate.symm hreset) hne⟩
      | true =>
        -- The frame is over: what the line shows next was computed at a counter of zero.
        exact ⟨.inr rfl, (toNat_tReset P).le, le_rfl, (toNat_numLeds hleds).le,
          fun hdata => absurd hdata.symm hne, fun _ => dataNext_of_zero (beq_iff_eq.mp hcount)⟩

/-- The memory and the colour read from it are not in the assertions. -/
theorem InRange.of_stepState (h : InRange (stepState s i)) : InRange (step s i) :=
  ⟨h.state, h.bitCounter, h.rgbCounter, h.ledCounter, h.bitCounter_data, h.data_reset⟩

theorem InRange.step (hleds : 2 ≤ P.numLeds) (hoff : 1 ≤ P.tOff) (h : InRange s) (i : In) :
    InRange (step s i) := by
  refine InRange.of_stepState ?_
  cases hi : i.reset with
  | true => exact InRange.of_reset hleds hi s
  | false =>
    rcases h.state with hdata | hreset
    · rw [stepState_data hi hdata]
      exact h.stepData hleds hoff hdata
    · rw [stepState_reset hi hreset]
      exact h.stepReset hleds hoff hreset

/-- In the last cycle of an LED the machine goes on to the next LED, or the frame
is over. -/
theorem LastBit.ledCounter (h : LastBit s) (hi : i.reset = false)
    (hnext : (step s i).state = stateData) :
    (step s i).ledCounter.toNat + 1 = s.ledCounter.toNat := by
  have hstep : stepState s i = stepData s := stepState_data hi h.state
  have hne : stateReset ≠ stateData := by decide
  have hcount : (s.bitCounter == 0) = true := beq_iff_eq.mpr h.bitCounter
  have hrgb : (s.rgbCounter == 0) = true := beq_iff_eq.mpr h.rgbCounter
  rw [step, hstep, stepData, if_pos hcount, if_pos hrgb] at hnext ⊢
  cases hled : s.ledCounter == 0 with
  | true =>
    rw [hled] at hnext
    exact absurd hnext hne
  | false =>
    rw [eq_zero_iff, decide_eq_false_iff_not] at hled
    obtain ⟨c, hc⟩ := Nat.exists_eq_add_one_of_ne_zero hled
    show (s.ledCounter - 1).toNat + 1 = _
    rw [toNat_sub_one hc, hc]

theorem steps_step (s : P.Regs) (i : In) : Steps s i (step s i) := by
  have hne : stateReset ≠ stateData := by decide
  refine ⟨fun hi => ?_, fun hlast hnext => ?_, fun hwrite hnum => ?_⟩
  · rw [step, stepState, if_pos hi]
    exact ⟨rfl, toNat_tReset P, rfl⟩
  · refine hlast.ledCounter ?_ hnext
    by_contra hi
    rw [Bool.not_eq_false] at hi
    exact hne ((idle_of_reset hi s).state.symm.trans hnext)
  · show (if i.write && decide (i.ledNum.toNat < P.numLeds) then _ else _ : ℕ → BitVec 24) _ = _
    rw [hwrite, decide_eq_true hnum, Bool.and_self, if_pos rfl, Function.update_self]

end Cycle

/-! ## Runs -/

theorem one_le_tOff (hclk : 3 ≤ P.clkMhz) : 1 ≤ P.tOff := by
  unfold Params.tOff
  omega

end Ws2812
