-- SUMMARY: The gain of cic_decimator.v against the width of its samples, and the samples of the instances in sesenta.v.
import FpgaAcoustic.Rtl.CicOverflow
import FpgaAcoustic.Rtl.Cadence

/-!
# Headroom

The internal width grows with the stages and the decimation, the width of a
sample does not. A constant stream of bits brings out the whole gain `R ^ N` of
the filter, so the width of the samples decides whether any of them is clipped.
-/

namespace CicDecimator

open Signal

variable {P : Params}

/-! ## Specification -/

/-- The value of the filter behind the sample that is valid in cycle `t`. -/
def unsaturated (s : Regs P) (inp : ℕ → In) (t : ℕ) : ℤ :=
  response P (pdmSignal (seenBits s inp t)) (P.cicDecimation * pulseCount s inp t - latency P)

/-- The signed numbers of `w` bits. -/
def InRange (w : ℕ) (v : ℤ) : Prop := -2 ^ (w - 1) ≤ v ∧ v ≤ 2 ^ (w - 1) - 1

/-- No sample is clipped. -/
structure Unclipped (s : Regs P) (inp : ℕ → In) : Prop where
  pcmData : ∀ t, 1 ≤ t → (run s inp t).pcmValid = true →
    (run s inp t).pcmData.toInt = unsaturated s inp t
  overflow : ∀ t, 1 ≤ t → (run s inp t).overflow = false

/-! ## Samples of any run -/

section Run

variable {s : Regs P} {inp : ℕ → In} {t : ℕ}

theorem abs_unsaturated_le (s : Regs P) (inp : ℕ → In) (t : ℕ) :
    |unsaturated s inp t| ≤ (P.cicDecimation : ℤ) ^ P.cicStages := by
  have hle := abs_window_iterate_le (abs_pdmSignal_le (seenBits s inp t)) P.cicDecimation
    P.cicStages (P.cicDecimation * pulseCount s inp t - latency P)
  rwa [mul_one] at hle

theorem FromReset.sample (h : FromReset inp) (ht : 1 ≤ t)
    (hvalid : (run s inp t).pcmValid = true) :
    (run s inp t).pcmData.toInt = clamp P.dataWidth (unsaturated s inp t) := by
  obtain ⟨u, rfl, hu, hout, hdata⟩ := h.strobe_of_valid ht hvalid
  rw [hdata, toInt_saturate, h.lastComb_toInt hu hout, unsaturated]

theorem FromReset.valid_of_strobe (h : FromReset inp) (ht : 1 ≤ t)
    (hout : (run s inp t).cicStrobeOut = true) : (run s inp (t + 1)).pcmValid = true := by
  rw [h.run_succ s ht]
  exact hout

theorem FromReset.clipped_iff (h : FromReset inp) (ht : 1 ≤ t) :
    Clipped s inp t ↔ (run s inp (t + 1)).pcmValid = true ∧
      ¬ InRange P.dataWidth (unsaturated s inp (t + 1)) := by
  have hvalue : (run s inp t).cicStrobeOut = true →
      ((run s inp (t + 1)).pcmData.toInt ≠ ((run s inp t).combOutput P.lastStage).toInt ↔
        ¬ InRange P.dataWidth (unsaturated s inp (t + 1))) := by
    intro hout
    have hlast : ((run s inp t).combOutput P.lastStage).toInt = unsaturated s inp (t + 1) :=
      h.lastComb_toInt ht hout
    rw [h.sample (Nat.le_succ_of_le ht) (h.valid_of_strobe ht hout), hlast, ne_eq, clamp_eq_iff]
    rfl
  constructor
  · rintro ⟨hout, hreplaced⟩
    exact ⟨h.valid_of_strobe ht hout, (hvalue hout).mp hreplaced⟩
  · rintro ⟨hvalid, hrange⟩
    have hout : (run s inp t).cicStrobeOut = true := by
      rwa [h.run_succ s ht] at hvalid
    exact ⟨hout, (hvalue hout).mpr hrange⟩

/-- After the only reset the flag is never cleared. -/
theorem FromReset.overflow_eq_true_iff (h : FromReset inp) (ht : 1 ≤ t) :
    (run s inp t).overflow = true ↔ ∃ u, 1 ≤ u ∧ u < t ∧ (run s inp u).pcmValid = true ∧
      ¬ InRange P.dataWidth (unsaturated s inp u) := by
  constructor
  · intro hoverflow
    obtain ⟨u, hut, hnone, hclipped⟩ := clippedSince_of_overflow h.rst_zero ht hoverflow
    have hu : 1 ≤ u := by
      by_contra hzero
      have hlow := hnone 0 (by omega) (by omega)
      have hhigh : (inp 0).rst = true := h.rst_zero
      rw [hhigh] at hlow
      cases hlow
    exact ⟨u + 1, by omega, by omega, (h.clipped_iff hu).mp hclipped⟩
  · rintro ⟨u, hu, hut, hvalid, hrange⟩
    obtain ⟨v, rfl, hv, -⟩ := h.strobe_of_valid hu hvalid
    refine overflow_of_clippedSince ⟨v, by omega, ?_, (h.clipped_iff hv).mpr ⟨hvalid, hrange⟩⟩
    exact fun c hvc _ => h.low (hv.trans hvc)

/-- A gain within the sample width leaves every sample alone. -/
theorem FromReset.unclipped (h : FromReset inp)
    (hgain : (P.cicDecimation : ℤ) ^ P.cicStages ≤ 2 ^ (P.dataWidth - 1) - 1) :
    Unclipped s inp := by
  have hrange : ∀ t, InRange P.dataWidth (unsaturated s inp t) := by
    intro t
    obtain ⟨hlow, hhigh⟩ := abs_le.mp (abs_unsaturated_le s inp t)
    exact ⟨by omega, hhigh.trans hgain⟩
  refine ⟨fun t ht hvalid => ?_, fun t ht => ?_⟩
  · rw [h.sample ht hvalid]
    exact clamp_eq_iff.mpr (hrange t)
  · rw [Bool.eq_false_iff, ne_eq, h.overflow_eq_true_iff ht]
    rintro ⟨u, -, -, -, hout⟩
    exact hout (hrange u)

end Run

/-! ## A constant stream -/

section High

variable {s : Regs P} {inp : ℕ → In} {half : ℕ}

/-- Every bit after the reset is high. -/
def High (inp : ℕ → In) : Prop := ∀ t, 1 ≤ t → (inp t).pdmData = true

/-- The registers of the synchroniser hold low bits, but no strobe sees them. -/
theorem High.all_true (hhigh : High inp) (hreset : FromReset inp) {t : ℕ} (ht : 1 ≤ t) :
    ∀ b ∈ seenBits s inp t, b = true := by
  induction t, ht using Nat.le_induction with
  | base => simp [seenBits_one hreset]
  | succ t ht ih =>
    cases hstrobe : (run s inp t).pdmStrobe with
    | false => rwa [seenBits_of_quiet hreset ht hstrobe]
    | true =>
      obtain ⟨k, rfl⟩ := Nat.exists_eq_add_of_le (three_le_of_strobe hreset ht hstrobe)
      have hbit : (run s inp (3 + k)).pdmDataSync2 = true := by
        rw [pdmDataSync2_eq hreset]
        exact hhigh (1 + k) (Nat.le_add_right 1 k)
      rw [seenBits_of_strobe hreset ht hstrobe, hbit]
      intro b hb
      rcases List.mem_append.mp hb with hb | hb
      · exact ih b hb
      · exact List.mem_singleton.mp hb

theorem length_seenBits (hhalf : 1 ≤ half) (hreset : FromReset inp) (hclk : Divided half inp)
    (k : ℕ) : (seenBits s inp (4 + k)).length = 1 + k / (2 * half) := by
  have hstep : ∀ u, 1 ≤ u → (seenBits s inp (u + 1)).length =
      if (run s inp u).pdmStrobe then (seenBits s inp u).length + 1
      else (seenBits s inp u).length := by
    intro u hu
    cases hstrobe : (run s inp u).pdmStrobe with
    | false => rw [seenBits_of_quiet hreset hu hstrobe, if_neg Bool.false_ne_true]
    | true => rw [seenBits_of_strobe hreset hu hstrobe, List.length_append, if_pos rfl]; rfl
  have hthree : (seenBits s inp 3).length = 0 := by
    obtain ⟨hone, htwo⟩ := @pdmStrobe_early P s inp hreset
    rw [seenBits_of_quiet hreset (by decide) htwo, seenBits_of_quiet hreset le_rfl hone,
      seenBits_one hreset]
    rfl
  have hfour : (seenBits s inp 4).length = 1 := by
    rw [hstep 3 (by decide), pdmStrobe_three hhalf hreset hclk, if_pos rfl, hthree]
  have hticks := @Clocked.iterate_of_ticks _ (· + 1)
    (fun t => (seenBits s inp t).length) (fun t => (run s inp t).pdmStrobe) 4
    (2 * half) (fun u hu => hstep u (by omega)) (pdmStrobe_succ hhalf hreset hclk) k
  refine hticks.trans ?_
  rw [hfour]
  exact Nat.succ_iterate 1 _

theorem pdmSignal_of_high {bits : List Bool} (hbits : ∀ b ∈ bits, b = true) {k : ℤ} (hk : 1 ≤ k)
    (hle : k ≤ bits.length) : pdmSignal bits k = 1 := by
  have hlt : (k - 1).toNat < bits.length := by omega
  have hget : bits[(k - 1).toNat]? = some true := by
    rw [List.getElem?_eq_getElem hlt, hbits _ (List.getElem_mem hlt)]
  simp only [pdmSignal, hk, if_true, hget]

/-- The sample that comes `q` samples after the first. -/
def sampleCycle (half decimation q : ℕ) : ℕ := firstValid half decimation + 2 * half * decimation * q

theorem one_le_sampleCycle (half decimation q : ℕ) : 1 ≤ sampleCycle half decimation q := by
  unfold sampleCycle firstValid
  omega

theorem pcmValid_sampleCycle (hhalf : 1 ≤ half) (hreset : FromReset inp) (hclk : Divided half inp)
    (q : ℕ) : (run s inp (sampleCycle half P.cicDecimation q)).pcmValid = true := by
  rw [pcmValid_eq hhalf hreset hclk (one_le_sampleCycle half P.cicDecimation q), Clocked.train,
    decide_eq_true_iff, sampleCycle, Nat.add_sub_cancel_left]
  exact ⟨Nat.le_add_right _ _, Nat.dvd_mul_right _ _⟩

theorem length_seenBits_sampleCycle (hhalf : 1 ≤ half) (hreset : FromReset inp)
    (hclk : Divided half inp) (q : ℕ) :
    (seenBits s inp (sampleCycle half P.cicDecimation q)).length =
      P.cicDecimation * (q + 1) := by
  have htwo := P.two_le_cicDecimation
  have hcycle : sampleCycle half P.cicDecimation q =
      4 + 2 * half * (P.cicDecimation - 1 + P.cicDecimation * q) := by
    unfold sampleCycle firstValid
    ring
  rw [hcycle, length_seenBits hhalf hreset hclk, Nat.mul_div_cancel_left _ (by omega),
    Nat.mul_add, Nat.mul_one]
  omega

/-- From the sample on that sees only high bits, the whole gain comes out. -/
theorem unsaturated_of_high (hhalf : 1 ≤ half) (hreset : FromReset inp) (hclk : Divided half inp)
    (hhigh : High inp) :
    unsaturated s inp (sampleCycle half P.cicDecimation (2 * P.cicStages)) =
      (P.cicDecimation : ℤ) ^ P.cicStages := by
  have htwo := P.two_le_cicDecimation
  have hone := one_le_sampleCycle half P.cicDecimation (2 * P.cicStages)
  have hlength := length_seenBits_sampleCycle (s := s) hhalf hreset hclk (2 * P.cicStages)
  have hcount := hreset.pulseCount_eq (s := s) hone
  rw [hlength, Nat.mul_div_cancel_left _ (by omega)] at hcount
  rw [unsaturated, response, hcount, ← Nat.cast_mul]
  have hroom : latency P + P.cicStages * (P.cicDecimation - 1) + 1 ≤
      P.cicDecimation * (2 * P.cicStages + 1) := by
    obtain ⟨r, hr⟩ := Nat.exists_eq_add_of_le htwo
    have hpred : P.cicDecimation - 1 = r + 1 := by omega
    have hsplit : P.cicDecimation * (2 * P.cicStages + 1) =
        P.cicDecimation * P.cicStages + P.cicStages + P.cicStages * (r + 1) + P.cicDecimation := by
      rw [hr]
      ring
    rw [latency, hpred, hsplit]
    omega
  rw [window_iterate_of_const (c := 1) P.cicDecimation P.cicStages, mul_one]
  intro j hj
  refine pdmSignal_of_high (hhigh.all_true hreset hone) ?_ ?_
  · omega
  · rw [hlength]
    omega

/-- A stream of high bits, with the level of the divided clock. -/
def highs (half : ℕ) (t : ℕ) : In := ⟨t == 0, decide ((t - 1) / half % 2 = 0), true⟩

theorem highs_fromReset (half : ℕ) : FromReset (highs half) := ⟨rfl, fun t => by simp [highs]⟩

theorem highs_divided (half : ℕ) : Divided half (highs half) := by
  intro k
  rw [highs, Nat.add_sub_cancel_left]

theorem highs_high (half : ℕ) : High (highs half) := fun _ _ => rfl

/-- No bit stream is clipped just when the gain is within the sample width. -/
theorem headroom_iff (P : Params) :
    (∀ (s : Regs P) (inp : ℕ → In), FromReset inp → Unclipped s inp) ↔
      (P.cicDecimation : ℤ) ^ P.cicStages ≤ 2 ^ (P.dataWidth - 1) - 1 := by
  constructor
  · intro hall
    have hreset := highs_fromReset 1
    have hone := one_le_sampleCycle 1 P.cicDecimation (2 * P.cicStages)
    have hvalid := pcmValid_sampleCycle (s := (default : Regs P)) le_rfl hreset
      (highs_divided 1) (2 * P.cicStages)
    have hdata := (hall default _ hreset).pcmData _ hone hvalid
    rw [hreset.sample hone hvalid, clamp_eq_iff,
      unsaturated_of_high le_rfl hreset (highs_divided 1) (highs_high 1)] at hdata
    exact hdata.2
  · exact fun hgain s inp h => h.unclipped hgain

end High

end CicDecimator

/-! ## The instances -/

namespace Mics

open CicDecimator (Unclipped InRange FromReset unsaturated)

/-- The ninth sample of the microphone clock, of a stream of high bits. -/
theorem highs_ninth :
    (CicDecimator.run (default : CicDecimator.Regs sesentaCic) (CicDecimator.highs 25)
        22454).pcmValid = true ∧
      unsaturated (default : CicDecimator.Regs sesentaCic) (CicDecimator.highs 25) 22454 =
        6250000 := by
  have hreset := CicDecimator.highs_fromReset 25
  have hclk := CicDecimator.highs_divided 25
  have hvalid := CicDecimator.pcmValid_sampleCycle (s := (default : CicDecimator.Regs sesentaCic))
    (by decide) hreset hclk 8
  have hvalue := CicDecimator.unsaturated_of_high (s := (default : CicDecimator.Regs sesentaCic))
    (by decide) hreset hclk (CicDecimator.highs_high 25)
  refine ⟨hvalid, hvalue.trans ?_⟩
  norm_num [sesentaCic]

/-- It is not a number of 16 bits. -/
theorem highs_not_unclipped :
    ¬ Unclipped (default : CicDecimator.Regs sesentaCic) (CicDecimator.highs 25) := by
  intro h
  have hreset := CicDecimator.highs_fromReset 25
  obtain ⟨hvalid, hvalue⟩ := highs_ninth
  have hdata := h.pcmData 22454 (by decide) hvalid
  rw [hreset.sample (by decide) hvalid, CicDecimator.clamp_eq_iff, hvalue] at hdata
  have hhigh := hdata.2
  norm_num [sesentaCic] at hhigh

/-- The samples of the decimators of the design, whatever their streams: the
value is at most 6250000, and the sample is the value when it fits, else the
nearer end. The flag tells whether a sample before did not fit. -/
theorem sesenta_samples {inp : ℕ → CicDecimator.In} (h : FromReset inp)
    (s : CicDecimator.Regs sesentaCic) :
    (∀ t, 1 ≤ t → (CicDecimator.run s inp t).pcmValid = true →
      |unsaturated s inp t| ≤ 6250000 ∧
      (-32768 ≤ unsaturated s inp t → unsaturated s inp t ≤ 32767 →
        (CicDecimator.run s inp t).pcmData.toInt = unsaturated s inp t) ∧
      (32767 < unsaturated s inp t → (CicDecimator.run s inp t).pcmData.toInt = 32767) ∧
      (unsaturated s inp t < -32768 → (CicDecimator.run s inp t).pcmData.toInt = -32768)) ∧
    ∀ t, 1 ≤ t → ((CicDecimator.run s inp t).overflow = true ↔
      ∃ u, 1 ≤ u ∧ u < t ∧ (CicDecimator.run s inp u).pcmValid = true ∧
        ¬ (-32768 ≤ unsaturated s inp u ∧ unsaturated s inp u ≤ 32767)) := by
  refine ⟨fun t ht hvalid => ?_, fun t ht => h.overflow_eq_true_iff ht⟩
  have hbound := CicDecimator.abs_unsaturated_le s inp t
  have hgain : ((sesentaCic.cicDecimation : ℕ) : ℤ) ^ sesentaCic.cicStages = 6250000 := by
    norm_num [sesentaCic]
  have hclamp : CicDecimator.clamp sesentaCic.dataWidth (unsaturated s inp t) =
      max (-32768) (min (unsaturated s inp t) 32767) := rfl
  rw [hgain] at hbound
  rw [h.sample ht hvalid, hclamp]
  exact ⟨hbound, by omega, by omega, by omega⟩

theorem highs_samples :
    (CicDecimator.run (default : CicDecimator.Regs sesentaCic) (CicDecimator.highs 25)
        22454).pcmData.toInt = 32767 ∧
      (CicDecimator.run (default : CicDecimator.Regs sesentaCic) (CicDecimator.highs 25)
        22455).overflow = true := by
  obtain ⟨hvalid, hvalue⟩ := highs_ninth
  obtain ⟨hdata, hoverflow⟩ := sesenta_samples (CicDecimator.highs_fromReset 25) default
  refine ⟨(hdata 22454 (by decide) hvalid).2.2.1 (by rw [hvalue]; decide), ?_⟩
  refine (hoverflow 22455 (by decide)).mpr ⟨22454, by decide, by decide, hvalid, ?_⟩
  rw [hvalue]
  decide

end Mics
