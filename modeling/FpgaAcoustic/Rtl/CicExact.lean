-- SUMMARY: The samples of cic_decimator are the exact CIC response of the bits it saw, clamped to the sample width.
import Mathlib.Tactic.Linarith
import FpgaAcoustic.Rtl.CicDecimator
import FpgaAcoustic.Signal.Operators

/-!
# Exactness of the CIC decimator

The integrators wrap, so the registers are read in `BitVec internalWidth`, where
the cascade of `Signal.Operators` is exact. The integer response has an absolute
value of at most `R ^ N`, which the internal width holds, so the register value
read as a signed number is that integer.
-/

namespace CicDecimator

open Signal

variable {P : Params}

/-! ## Specification -/

/-- The synchronised bits at the strobes since the last reset, oldest first, as
seen before cycle `t`. -/
def seenBits (s : Regs P) (inp : ℕ → In) : ℕ → List Bool
  | 0 => []
  | t + 1 =>
    if (inp t).rst then []
    else if (run s inp t).pdmStrobe then seenBits s inp t ++ [(run s inp t).pdmDataSync2]
    else seenBits s inp t

/-- The signal of `+1` and `-1` a list of bits stands for; the first bit has
time `1`, and every other time is `0`. -/
def pdmSignal (bits : List Bool) (k : ℤ) : ℤ :=
  if 1 ≤ k then
    match bits[(k - 1).toNat]? with
    | some true => 1
    | some false => -1
    | none => 0
  else 0

/-- The `N`-stage CIC response: the moving sum over `R` samples, `N` times. -/
def response (P : Params) (x : ℤ → ℤ) : ℤ → ℤ := (window P.cicDecimation)^[P.cicStages] x

/-- The delay of the response, in strobes. -/
def latency (P : Params) : ℕ := P.cicDecimation * P.cicStages + P.cicStages + 1

/-- The nearest sample of `w` bits. -/
def clamp (w : ℕ) (v : ℤ) : ℤ := max (-2 ^ (w - 1)) (min v (2 ^ (w - 1) - 1))

/-- The number of `pcm_valid` pulses in the cycles `1 .. t`. -/
def pulseCount (s : Regs P) (inp : ℕ → In) (t : ℕ) : ℕ :=
  Clocked.pulses (fun c => (run s inp (c + 1)).pcmValid) t

/-! ## The bits seen -/

section Seen

variable {s : Regs P} {inp : ℕ → In} {t : ℕ}

theorem seenBits_one (h : FromReset inp) : seenBits s inp 1 = [] := by
  simp [seenBits, h.rst_zero]

theorem seenBits_of_strobe (h : FromReset inp) (ht : 1 ≤ t)
    (hs : (run s inp t).pdmStrobe = true) :
    seenBits s inp (t + 1) = seenBits s inp t ++ [(run s inp t).pdmDataSync2] := by
  obtain ⟨t, rfl⟩ := Nat.exists_eq_add_of_le' ht
  rw [seenBits, h.rst_succ, if_neg Bool.false_ne_true, if_pos hs]

theorem seenBits_of_quiet (h : FromReset inp) (ht : 1 ≤ t)
    (hs : (run s inp t).pdmStrobe = false) :
    seenBits s inp (t + 1) = seenBits s inp t := by
  obtain ⟨t, rfl⟩ := Nat.exists_eq_add_of_le' ht
  rw [seenBits, h.rst_succ, if_neg Bool.false_ne_true, hs, if_neg Bool.false_ne_true]

/-- Later strobes only append. -/
theorem seenBits_prefix (h : FromReset inp) (ht : 1 ≤ t) {T : ℕ} (hT : t ≤ T) :
    seenBits s inp t <+: seenBits s inp T := by
  induction T, hT using Nat.le_induction with
  | base => exact List.prefix_refl _
  | succ T hT ih =>
    cases hs : (run s inp T).pdmStrobe with
    | true =>
      rw [seenBits_of_strobe h (ht.trans hT) hs]
      exact ih.trans (List.prefix_append _ _)
    | false =>
      rw [seenBits_of_quiet h (ht.trans hT) hs]
      exact ih

end Seen

theorem pdmSignal_causal (bits : List Bool) : Causal (pdmSignal bits) := by
  intro k hk
  simp [pdmSignal, show ¬ 1 ≤ k by omega]

theorem abs_pdmSignal_le (bits : List Bool) (k : ℤ) : |pdmSignal bits k| ≤ 1 := by
  unfold pdmSignal
  split
  · split <;> simp
  · simp

/-- The signal at the time of the bit that follows the prefix `pre`. -/
theorem pdmSignal_after {pre bits : List Bool} {b : Bool} (h : pre ++ [b] <+: bits) :
    pdmSignal bits (pre.length + 1) = if b then 1 else -1 := by
  have hget : bits[pre.length]? = some b := by
    obtain ⟨post, rfl⟩ := h
    simp
  have hk : ((pre.length : ℤ) + 1 - 1).toNat = pre.length := by omega
  simp only [pdmSignal, show (1 : ℤ) ≤ pre.length + 1 by omega, if_true, hk, hget]
  cases b <;> rfl

/-! ## Registers in the internal width -/

/-- The signal as register values. -/
def wordSignal (P : Params) (x : ℤ → ℤ) : ℤ → BitVec P.internalWidth :=
  Int.castAddHom (BitVec P.internalWidth) ∘ x

theorem wordSignal_causal {x : ℤ → ℤ} (h : Causal x) : Causal (wordSignal P x) := by
  intro k hk
  simp [wordSignal, h k hk]

theorem pdmSigned_eq (s : Regs P) :
    s.pdmSigned = Int.castAddHom (BitVec P.internalWidth) (if s.pdmDataSync2 then 1 else -1) := by
  cases h : s.pdmDataSync2 with
  | true => simp [Regs.pdmSigned, h]
  | false => simp [Regs.pdmSigned, h, ← BitVec.neg_one_eq_allOnes]

/-- What the comb section sees of the integrators: the last stage through
`integrator_out`, read one strobe late, at every `R`-th strobe. -/
def combSignal (x : ℤ → BitVec P.internalWidth) : ℤ → BitVec P.internalWidth :=
  decimate P.cicDecimation ((delay ^ 2) (integrators x (P.cicStages - 1)))

theorem combSignal_causal (x : ℤ → BitVec P.internalWidth) : Causal (combSignal x) :=
  ((integrators_causal x _).delay_pow 2).decimate _

/-- The registers of the cascade after `k` strobes of the signal `x`, of which
every `R`-th also moved the comb section. -/
structure Cascade (x : ℤ → BitVec P.internalWidth) (k : ℕ) (s : Regs P) : Prop where
  counter : s.decimationCounter.toNat = k % P.cicDecimation
  integrator : ∀ i, s.integrator i = integrators x i k
  integratorOut : s.integratorOut = delay (integrators x (P.cicStages - 1)) k
  combDelay : ∀ i, s.combDelay i = combInputs (combSignal x) i (k / P.cicDecimation : ℕ)
  combOutput : ∀ i, s.combOutput i = combs (combSignal x) i (k / P.cicDecimation : ℕ)

theorem Cascade.reset (x : ℤ → BitVec P.internalWidth) (s : Regs P) : Cascade x 0 s.reset where
  counter := by simp [Regs.reset]
  integrator i := (integrators_causal x i 0 le_rfl).symm
  integratorOut := ((integrators_causal x _).delay 0 le_rfl).symm
  combDelay i := by
    simpa [Regs.reset] using ((combSignal_causal x).combInputs i 0 le_rfl).symm
  combOutput i := by
    simpa [Regs.reset] using ((combSignal_causal x).combs i 0 le_rfl).symm

/-! ### One edge -/

section Edge

variable {x : ℤ → BitVec P.internalWidth} {k : ℕ} {s : Regs P} {i : In}

theorem Cascade.quiet (h : Cascade x k s) (hs : s.pdmStrobe = false) :
    Cascade x k (s.advance i) := by
  have hout : s.cicStrobeOut = false := by simp [Regs.cicStrobeOut, Regs.cicStrobeIn, hs]
  refine ⟨?_, ?_, ?_, ?_, ?_⟩
  · simpa [Regs.advance, Regs.nextDecimationCounter, Regs.cicStrobeIn, hs] using h.counter
  · simpa [Regs.advance, Regs.nextIntegrator, Regs.cicStrobeIn, hs] using h.integrator
  · simpa [Regs.advance, Regs.nextIntegratorOut, Regs.cicStrobeIn, hs] using h.integratorOut
  · simpa [Regs.advance, Regs.nextCombDelay, hout] using h.combDelay
  · simpa [Regs.advance, Regs.nextCombOutput, hout] using h.combOutput

theorem Cascade.strobeOut_iff (h : Cascade x k s) (hs : s.pdmStrobe = true) :
    s.cicStrobeOut = true ↔ (k + 1) % P.cicDecimation = 0 := by
  have hR := P.two_le_cicDecimation
  have hk := Nat.mod_lt k (show 0 < P.cicDecimation by omega)
  simp only [Regs.cicStrobeOut, Regs.cicStrobeIn, hs, h.counter, Bool.true_and, beq_iff_eq]
  rw [Nat.add_mod, Nat.mod_eq_of_lt (show 1 < P.cicDecimation by omega)]
  constructor
  · intro hlast
    rw [hlast, Nat.sub_add_cancel (by omega), Nat.mod_self]
  · intro hzero
    by_contra hne
    rw [Nat.mod_eq_of_lt (by omega)] at hzero
    omega

/-- The counter and the integrators at a strobe, whichever strobe it is. -/
theorem Cascade.counter_strobe (h : Cascade x k s) (hs : s.pdmStrobe = true) :
    s.nextDecimationCounter.toNat = (k + 1) % P.cicDecimation := by
  have hR := P.two_le_cicDecimation
  have hk := Nat.mod_lt k (show 0 < P.cicDecimation by omega)
  have hwidth : P.cicDecimation ≤ 2 ^ P.counterWidth := le_two_pow_clog2 (by omega)
  have hmod : (k + 1) % P.cicDecimation =
      if k % P.cicDecimation = P.cicDecimation - 1 then 0 else k % P.cicDecimation + 1 := by
    rw [Nat.add_mod, Nat.mod_eq_of_lt (show 1 < P.cicDecimation by omega)]
    split
    · rename_i hlast
      rw [hlast, Nat.sub_add_cancel (by omega), Nat.mod_self]
    · exact Nat.mod_eq_of_lt (by omega)
  simp only [Regs.nextDecimationCounter, Regs.cicStrobeIn, hs, h.counter, beq_iff_eq, if_true, hmod]
  split
  · simp
  · rw [BitVec.toNat_add, h.counter, BitVec.toNat_ofNat, Nat.add_mod_mod,
      Nat.mod_eq_of_lt (by omega)]

theorem Cascade.integrator_strobe (h : Cascade x k s) (hs : s.pdmStrobe = true)
    (hx : s.pdmSigned = x (k + 1)) (j : Fin P.cicStages) :
    s.nextIntegrator j = integrators x j (k + 1 : ℕ) := by
  obtain ⟨j, hj⟩ := j
  simp only [Regs.nextIntegrator, Regs.cicStrobeIn, hs, if_true]
  push_cast
  cases j with
  | zero =>
    simp only [if_true, h.integrator, hx, integrators]
    exact (accum_succ x k).symm
  | succ j =>
    simp only [Nat.succ_ne_zero, if_false, h.integrator, integrators]
    rw [accum_succ, delay_apply, add_sub_cancel_right]
    rfl

theorem Cascade.integratorOut_strobe (h : Cascade x k s) (hs : s.pdmStrobe = true) :
    s.nextIntegratorOut = delay (integrators x (P.cicStages - 1)) (k + 1 : ℕ) := by
  simp only [Regs.nextIntegratorOut, Regs.cicStrobeIn, hs, if_true, h.integrator]
  rw [delay_apply]
  push_cast
  rw [add_sub_cancel_right]
  rfl

/-- At an output strobe the comb inputs are the next values of their signals. -/
theorem Cascade.combInput_out (h : Cascade x k s) (hk : (k + 1) % P.cicDecimation = 0)
    (j : Fin P.cicStages) :
    s.combInput j = combInputs (combSignal x) j (k / P.cicDecimation + 1 : ℕ) := by
  obtain ⟨j, hj⟩ := j
  cases j with
  | zero =>
    have htime : (P.cicDecimation : ℤ) * (k / P.cicDecimation + 1 : ℕ) - 2 = k - 1 := by
      have hdiv : P.cicDecimation * (k / P.cicDecimation + 1) = k + 1 := by
        rw [← Nat.succ_div_of_dvd (Nat.dvd_of_mod_eq_zero hk)]
        exact Nat.mul_div_cancel' (Nat.dvd_of_mod_eq_zero hk)
      rw [← Nat.cast_mul, hdiv]
      push_cast
      ring
    simp only [Regs.combInput, if_true, h.integratorOut, combInputs, combSignal, delay_apply,
      decimate_apply, delay_pow_apply, Nat.cast_ofNat]
    rw [htime]
  | succ j =>
    simp only [Regs.combInput, Nat.succ_ne_zero, if_false, h.combOutput, combInputs, delay_apply]
    rw [Nat.cast_succ, add_sub_cancel_right]
    rfl

/-- A strobe advances the cascade by one sample. -/
theorem Cascade.strobe (h : Cascade x k s) (hs : s.pdmStrobe = true)
    (hx : s.pdmSigned = x (k + 1)) : Cascade x (k + 1) (s.advance i) := by
  refine ⟨h.counter_strobe hs, h.integrator_strobe hs hx, h.integratorOut_strobe hs, ?_, ?_⟩
  · intro j
    by_cases hk : (k + 1) % P.cicDecimation = 0
    · rw [Nat.succ_div_of_dvd (Nat.dvd_of_mod_eq_zero hk), ← h.combInput_out hk]
      simp [Regs.advance, Regs.nextCombDelay, (h.strobeOut_iff hs).mpr hk]
    · rw [Nat.succ_div_of_not_dvd (mt Nat.mod_eq_zero_of_dvd hk), ← h.combDelay]
      simp [Regs.advance, Regs.nextCombDelay, mt (h.strobeOut_iff hs).mp hk]
  · intro j
    by_cases hk : (k + 1) % P.cicDecimation = 0
    · rw [Nat.succ_div_of_dvd (Nat.dvd_of_mod_eq_zero hk), combs_apply, ← h.combInput_out hk,
        Nat.cast_succ, add_sub_cancel_right]
      simp [Regs.advance, Regs.nextCombOutput, (h.strobeOut_iff hs).mpr hk, h.combDelay]
    · rw [Nat.succ_div_of_not_dvd (mt Nat.mod_eq_zero_of_dvd hk), ← h.combOutput]
      simp [Regs.advance, Regs.nextCombOutput, mt (h.strobeOut_iff hs).mp hk]

end Edge

/-! ## Runs -/

section Run

variable {s : Regs P} {inp : ℕ → In} {t : ℕ}

/-- In every cycle of a run up to a horizon, the cascade has seen the bits of
the strobes before that cycle. -/
theorem FromReset.cascade (h : FromReset inp) {T : ℕ} (ht : 1 ≤ t) (hT : t ≤ T) :
    Cascade (wordSignal P (pdmSignal (seenBits s inp T))) (seenBits s inp t).length
      (run s inp t) := by
  induction t, ht using Nat.le_induction with
  | base =>
    rw [seenBits_one h, h.run_one]
    exact Cascade.reset _ _
  | succ t ht ih =>
    have hcascade := ih (Nat.le_of_succ_le hT)
    rw [h.run_succ s ht]
    cases hs : (run s inp t).pdmStrobe with
    | false =>
      rw [seenBits_of_quiet h ht hs]
      exact hcascade.quiet hs
    | true =>
      have happend := seenBits_of_strobe h ht hs
      have hprefix := seenBits_prefix (s := s) h (Nat.le_add_left 1 t) hT
      rw [happend] at hprefix
      have hx : (run s inp t).pdmSigned = wordSignal P (pdmSignal (seenBits s inp T))
          ((seenBits s inp t).length + 1) := by
        rw [pdmSigned_eq, wordSignal, Function.comp_apply, pdmSignal_after hprefix]
      rw [happend, List.length_append]
      exact hcascade.strobe hs hx

/-- `pcm_valid` has pulsed once for every `R` strobes seen. -/
theorem FromReset.pulseCount_eq (h : FromReset inp) (ht : 1 ≤ t) :
    pulseCount s inp t = (seenBits s inp t).length / P.cicDecimation := by
  induction t, ht using Nat.le_induction with
  | base => simp [pulseCount, Clocked.pulses, seenBits_one h, h.run_one, Regs.reset]
  | succ t ht ih =>
    have hcascade := h.cascade (s := s) ht le_rfl
    have hvalid : (run s inp (t + 1)).pcmValid = (run s inp t).cicStrobeOut := by
      rw [h.run_succ s ht]; rfl
    have hcount : pulseCount s inp (t + 1) =
        pulseCount s inp t + ((run s inp t).cicStrobeOut).toNat := by
      rw [← hvalid]; rfl
    rw [hcount, ih]
    cases hs : (run s inp t).pdmStrobe with
    | false =>
      rw [seenBits_of_quiet h ht hs]
      simp [Regs.cicStrobeOut, Regs.cicStrobeIn, hs]
    | true =>
      rw [seenBits_of_strobe h ht hs, List.length_append, List.length_singleton]
      by_cases hk : ((seenBits s inp t).length + 1) % P.cicDecimation = 0
      · rw [Nat.succ_div_of_dvd (Nat.dvd_of_mod_eq_zero hk), (hcascade.strobeOut_iff hs).mpr hk]
        rfl
      · rw [Nat.succ_div_of_not_dvd (mt Nat.mod_eq_zero_of_dvd hk),
          Bool.eq_false_iff.mpr (mt (hcascade.strobeOut_iff hs).mp hk)]
        rfl

end Run

/-! ## Width -/

theorem cicDecimation_pow_lt (P : Params) :
    (P.cicDecimation : ℤ) ^ P.cicStages < 2 ^ (P.internalWidth - 1) := by
  have hR := P.two_le_cicDecimation
  have hW := P.two_le_dataWidth
  have hpow : P.cicDecimation ^ P.cicStages ≤ 2 ^ P.cicBitGrowth := by
    calc P.cicDecimation ^ P.cicStages ≤ (2 ^ clog2 P.cicDecimation) ^ P.cicStages :=
          Nat.pow_le_pow_left (le_two_pow_clog2 (by omega)) _
      _ = 2 ^ P.cicBitGrowth := by rw [← pow_mul, Nat.mul_comm]; rfl
  have hlt : 2 ^ P.cicBitGrowth < 2 ^ (P.internalWidth - 1) :=
    Nat.pow_lt_pow_right (by norm_num) (by unfold Params.internalWidth; omega)
  exact_mod_cast hpow.trans_lt hlt

/-- The integer response fits the internal width, whatever the bits. -/
theorem abs_response_lt (P : Params) (bits : List Bool) (k : ℤ) :
    |response P (pdmSignal bits) k| < 2 ^ (P.internalWidth - 1) := by
  have hle := abs_window_iterate_le (abs_pdmSignal_le bits) P.cicDecimation P.cicStages k
  rw [mul_one] at hle
  exact hle.trans_lt (cicDecimation_pow_lt P)

theorem bmod_two_pow {w : ℕ} (hw : 0 < w) {z : ℤ} (hlow : -2 ^ (w - 1) ≤ z)
    (hhigh : z < 2 ^ (w - 1)) : z.bmod (2 ^ w) = z := by
  have hpow : ((2 ^ w : ℕ) : ℤ) = 2 * 2 ^ (w - 1) := by
    rw [← pow_succ', Nat.sub_add_cancel hw]
    norm_num
  refine Int.bmod_eq_of_le_mul_two ?_ ?_
  · rw [hpow]
    linarith
  · rw [hpow]
    linarith

/-- A wrapped register reads as the integer it stands for when that integer fits. -/
theorem toInt_intCast {w : ℕ} (hw : 0 < w) {z : ℤ} (hz : |z| < 2 ^ (w - 1)) :
    (z : BitVec w).toInt = z := by
  obtain ⟨hlow, hhigh⟩ := abs_lt.mp hz
  rw [BitVec.toInt_intCast]
  exact bmod_two_pow hw hlow.le hhigh

/-- Dropping high bits keeps a value that fits the bits left. -/
theorem toInt_setWidth_of_fits {w n : ℕ} (hw : 0 < w) (hle : w ≤ n) {v : BitVec n}
    (hlow : -2 ^ (w - 1) ≤ v.toInt) (hhigh : v.toInt < 2 ^ (w - 1)) :
    (v.setWidth w).toInt = v.toInt := by
  rw [BitVec.toInt_setWidth, ← Int.bmod_bmod_of_dvd (Nat.pow_dvd_pow 2 hle),
    ← BitVec.toInt_eq_toNat_bmod]
  exact bmod_two_pow hw hlow hhigh

theorem toInt_pcmMax (P : Params) : (Regs.pcmMax P).toInt = 2 ^ (P.dataWidth - 1) - 1 := by
  exact BitVec.toInt_intMax

theorem toInt_pcmMin (P : Params) : (Regs.pcmMin P).toInt = -2 ^ (P.dataWidth - 1) := by
  have hW := P.two_le_dataWidth
  exact BitVec.toInt_intMin_of_pos (by omega)

/-- The two comparisons of the output section are comparisons of integers. -/
theorem tooHigh_iff (v : BitVec P.internalWidth) :
    Regs.tooHigh v = true ↔ 2 ^ (P.dataWidth - 1) - 1 < v.toInt := by
  rw [Regs.tooHigh, BitVec.slt_iff_toInt_lt,
    BitVec.toInt_signExtend_of_le P.dataWidth_le_internalWidth, toInt_pcmMax]

theorem tooLow_iff (v : BitVec P.internalWidth) :
    Regs.tooLow v = true ↔ v.toInt < -2 ^ (P.dataWidth - 1) := by
  rw [Regs.tooLow, BitVec.slt_iff_toInt_lt,
    BitVec.toInt_signExtend_of_le P.dataWidth_le_internalWidth, toInt_pcmMin]

/-- The saturating output is the clamp of the signed register value. -/
theorem toInt_saturate (v : BitVec P.internalWidth) :
    (Regs.saturate v).toInt = clamp P.dataWidth v.toInt := by
  have hpos : (0 : ℤ) < 2 ^ (P.dataWidth - 1) := by positivity
  unfold Regs.saturate clamp
  cases hhigh : Regs.tooHigh v with
  | true =>
    have hv := (tooHigh_iff v).mp hhigh
    rw [if_pos rfl, toInt_pcmMax, min_eq_right (by omega), max_eq_right (by omega)]
  | false =>
    have hv := not_lt.mp (mt (tooHigh_iff v).mpr (Bool.eq_false_iff.mp hhigh))
    rw [if_neg Bool.false_ne_true, min_eq_left hv]
    cases hlow : Regs.tooLow v with
    | true =>
      have hv' := (tooLow_iff v).mp hlow
      rw [if_pos rfl, toInt_pcmMin, max_eq_left hv'.le]
    | false =>
      have hv' := not_lt.mp (mt (tooLow_iff v).mpr (Bool.eq_false_iff.mp hlow))
      rw [if_neg Bool.false_ne_true, max_eq_right hv']
      have hW := P.two_le_dataWidth
      exact toInt_setWidth_of_fits (by omega) P.dataWidth_le_internalWidth hv'
        (Int.lt_of_le_sub_one hv)

/-! ## Exactness -/

section Exact

variable {s : Regs P} {inp : ℕ → In} {t : ℕ}

/-- The last comb register in front of an output strobe. -/
theorem Cascade.lastComb {bits : List Bool} {k : ℕ}
    (h : Cascade (wordSignal P (pdmSignal bits)) k s) (hk : (k + 1) % P.cicDecimation = 0) :
    s.combOutput P.lastStage =
      ((response P (pdmSignal bits)
        (P.cicDecimation * ((k + 1) / P.cicDecimation : ℕ) - latency P) : ℤ) :
          BitVec P.internalWidth) := by
  have hN := P.one_le_cicStages
  have htime : (P.cicDecimation : ℤ) * (k / P.cicDecimation : ℕ) -
      (P.cicDecimation * (P.cicStages - 1) + 2 + (P.cicStages - 1) : ℕ) =
      P.cicDecimation * ((k + 1) / P.cicDecimation : ℕ) - latency P := by
    obtain ⟨n, hn⟩ := Nat.exists_eq_add_of_le' hN
    rw [Nat.succ_div_of_dvd (Nat.dvd_of_mod_eq_zero hk), latency, hn, Nat.add_sub_cancel]
    push_cast
    ring
  rw [h.combOutput, Params.lastStage, combSignal,
    combs_decimate_integrators (wordSignal_causal (pdmSignal_causal bits)), htime,
    Nat.sub_add_cancel hN, wordSignal, window_iterate_map]
  rfl

theorem cicStrobeIn_of_out (h : s.cicStrobeOut = true) : s.pdmStrobe = true := by
  rw [Regs.cicStrobeOut, Bool.and_eq_true] at h
  exact h.1

/-- An output strobe reads the exact response off the last comb, however often
the integrators have wrapped. -/
theorem FromReset.lastComb_toInt (h : FromReset inp) (ht : 1 ≤ t)
    (hout : (run s inp t).cicStrobeOut = true) :
    ((run s inp t).combOutput P.lastStage).toInt =
      response P (pdmSignal (seenBits s inp (t + 1)))
        (P.cicDecimation * pulseCount s inp (t + 1) - latency P) := by
  have hstrobe := cicStrobeIn_of_out hout
  have hcascade := h.cascade (s := s) ht (Nat.le_succ t)
  have hk := (hcascade.strobeOut_iff hstrobe).mp hout
  rw [hcascade.lastComb hk, h.pulseCount_eq (Nat.le_succ_of_le ht),
    seenBits_of_strobe h ht hstrobe, List.length_append, List.length_singleton,
    toInt_intCast ?_ (abs_response_lt P _ _)]
  have := P.two_le_dataWidth
  unfold Params.internalWidth
  omega

/-- A valid sample is what the strobe of the cycle before has registered. -/
theorem FromReset.strobe_of_valid (h : FromReset inp) (ht : 1 ≤ t)
    (hvalid : (run s inp t).pcmValid = true) :
    ∃ u, t = u + 1 ∧ 1 ≤ u ∧ (run s inp u).cicStrobeOut = true ∧
      (run s inp t).pcmData = Regs.saturate ((run s inp u).combOutput P.lastStage) := by
  obtain ⟨u, rfl⟩ := Nat.exists_eq_add_of_le' ht
  rcases Nat.eq_zero_or_pos u with rfl | hu
  · simp [h.run_one, Regs.reset] at hvalid
  · rw [h.run_succ s hu] at hvalid ⊢
    have hout : (run s inp u).cicStrobeOut = true := hvalid
    refine ⟨u, rfl, hu, hout, ?_⟩
    simp [Regs.advance, Regs.nextPcmData, Regs.nextCicFinalOutput, hout]

/-- Every sample is the exact response of the bits seen, clamped to the sample
width, however often the integrators have wrapped. -/
theorem FromReset.pcmData_exact (h : FromReset inp) (ht : 1 ≤ t)
    (hvalid : (run s inp t).pcmValid = true) :
    (run s inp t).pcmData.toInt =
      clamp P.dataWidth (response P (pdmSignal (seenBits s inp t))
        (P.cicDecimation * pulseCount s inp t - latency P)) := by
  obtain ⟨u, rfl, hu, hout, hdata⟩ := h.strobe_of_valid ht hvalid
  rw [hdata, toInt_saturate, h.lastComb_toInt hu hout]

end Exact

/-- A first order decimator by two with two-bit samples. -/
def halver : Params where
  dataWidth := 2
  cicStages := 1
  cicDecimation := 2
  two_le_dataWidth := by decide
  one_le_cicStages := by decide
  two_le_cicDecimation := by decide

/-- A PDM clock of two cycles with data that stay high. -/
def ones (t : ℕ) : In := ⟨t == 0, t % 2 == 1, true⟩

theorem ones_fromReset : FromReset ones := ⟨rfl, fun t => by simp [ones]⟩

theorem halver_pcmData_exact :
    (run (default : Regs halver) ones 14).pcmData.toInt =
      clamp 2 (response halver (pdmSignal (seenBits (default : Regs halver) ones 14))
        (2 * pulseCount (default : Regs halver) ones 14 - latency halver)) :=
  ones_fromReset.pcmData_exact (by decide) (by decide +kernel)

end CicDecimator
