-- SUMMARY: The overflow output of cic_decimator.v, which is high once a sample has been clipped.
import FpgaAcoustic.Rtl.CicExact

/-!
# Overflow

The flag of the last sample is a register that the next sample overwrites, and
the output takes it over a cycle later. Samples are at least a cycle apart, so
each flag is taken over before it is gone.
-/

namespace CicDecimator

variable {P : Params}

/-! ## Specification -/

/-- There is no reset in the cycles `t .. c - 1`. -/
def NoReset (inp : ℕ → In) (t c : ℕ) : Prop := ∀ u, t ≤ u → u < c → (inp u).rst = false

/-- The strobe of cycle `t` registers a sample that is not the value of the last
comb, but one of the two ends of the range. -/
structure Clipped (s : Regs P) (inp : ℕ → In) (t : ℕ) : Prop where
  strobe : (run s inp t).cicStrobeOut = true
  replaced : (run s inp (t + 1)).pcmData.toInt ≠ ((run s inp t).combOutput P.lastStage).toInt

/-! ## One cycle -/

theorem clamp_eq_iff {w : ℕ} {v : ℤ} :
    clamp w v = v ↔ -2 ^ (w - 1) ≤ v ∧ v ≤ 2 ^ (w - 1) - 1 := by
  have hpos : (0 : ℤ) < 2 ^ (w - 1) := by positivity
  unfold clamp
  omega

/-- The flag says whether the sample differs from its value. -/
theorem clipped_iff (v : BitVec P.internalWidth) :
    (Regs.tooHigh v || Regs.tooLow v) = true ↔ (Regs.saturate v).toInt ≠ v.toInt := by
  rw [toInt_saturate, ne_eq, clamp_eq_iff, Bool.or_eq_true, tooHigh_iff, tooLow_iff]
  omega

section Run

variable {s : Regs P} {inp : ℕ → In} {t c : ℕ}

theorem run_succ_of_rst (h : (inp t).rst = true) : run s inp (t + 1) = (run s inp t).reset :=
  step_of_rst h

theorem run_succ_of_not_rst (h : (inp t).rst = false) :
    run s inp (t + 1) = (run s inp t).advance (inp t) :=
  step_of_not_rst h

theorem NoReset.succ (h : NoReset inp t c) (hrst : (inp c).rst = false) : NoReset inp t (c + 1) := by
  intro u htu huc
  rcases (Nat.le_of_lt_succ huc).lt_or_eq with hlt | rfl
  · exact h u htu hlt
  · exact hrst

theorem NoReset.of_succ (h : NoReset inp t (c + 1)) : NoReset inp t c :=
  fun u htu huc => h u htu (Nat.lt_succ_of_lt huc)

/-- The flag of a strobe. -/
theorem clipped_iff_flag (hrst : (inp t).rst = false)
    (hstrobe : (run s inp t).cicStrobeOut = true) :
    Clipped s inp t ↔ (run s inp (t + 1)).overflowFlag = true := by
  have hdata : (run s inp (t + 1)).pcmData =
      Regs.saturate ((run s inp t).combOutput P.lastStage) := by
    rw [run_succ_of_not_rst hrst]
    simp [Regs.advance, Regs.nextPcmData, Regs.nextCicFinalOutput, hstrobe]
  have hflag : (run s inp (t + 1)).overflowFlag =
      (Regs.tooHigh ((run s inp t).combOutput P.lastStage) ||
        Regs.tooLow ((run s inp t).combOutput P.lastStage)) := by
    rw [run_succ_of_not_rst hrst]
    simp [Regs.advance, Regs.nextOverflowFlag, Regs.nextCicFinalOutput, hstrobe]
  rw [hflag, clipped_iff, ← hdata]
  exact ⟨fun h => h.replaced, fun h => ⟨hstrobe, h⟩⟩

/-- Between strobes the flag stays. -/
theorem overflowFlag_quiet (hrst : (inp t).rst = false)
    (hquiet : (run s inp t).cicStrobeOut = false) :
    (run s inp (t + 1)).overflowFlag = (run s inp t).overflowFlag := by
  rw [run_succ_of_not_rst hrst]
  simp [Regs.advance, Regs.nextOverflowFlag, hquiet]

theorem overflow_succ (hrst : (inp t).rst = false) :
    (run s inp (t + 1)).overflow = ((run s inp t).overflowFlag || (run s inp t).overflow) := by
  rw [run_succ_of_not_rst hrst]
  rfl

end Run

/-! ## Runs -/

/-- Since the last reset before cycle `c`, a sample has been clipped at least
`lag` cycles ago. -/
def ClippedSince (s : Regs P) (inp : ℕ → In) (lag c : ℕ) : Prop :=
  ∃ t, t + lag ≤ c ∧ NoReset inp t c ∧ Clipped s inp t

section Since

variable {s : Regs P} {inp : ℕ → In} {c lag : ℕ}

theorem ClippedSince.succ (h : ClippedSince s inp lag c) (hrst : (inp c).rst = false) :
    ClippedSince s inp (lag + 1) (c + 1) := by
  obtain ⟨t, ht, hnone, hclipped⟩ := h
  exact ⟨t, by omega, hnone.succ hrst, hclipped⟩

theorem ClippedSince.mono {lag' : ℕ} (h : ClippedSince s inp lag c) (hle : lag' ≤ lag) :
    ClippedSince s inp lag' c := by
  obtain ⟨t, ht, hnone, hclipped⟩ := h
  exact ⟨t, by omega, hnone, hclipped⟩

/-- The flag is high only after a clipped sample. -/
theorem clippedSince_of_flag (hreset : (inp 0).rst = true) (hc : 1 ≤ c)
    (hflag : (run s inp c).overflowFlag = true) : ClippedSince s inp 1 c := by
  induction c, hc using Nat.le_induction with
  | base =>
    rw [run_succ_of_rst hreset] at hflag
    cases hflag
  | succ c hc ih =>
    cases hrst : (inp c).rst with
    | true =>
      rw [run_succ_of_rst hrst] at hflag
      cases hflag
    | false =>
      cases hstrobe : (run s inp c).cicStrobeOut with
      | false =>
        rw [overflowFlag_quiet hrst hstrobe] at hflag
        exact ((ih hflag).succ hrst).mono (by decide)
      | true =>
        have hnone : NoReset inp c (c + 1) := by
          intro u hcu huc
          rwa [Nat.le_antisymm (Nat.le_of_lt_succ huc) hcu]
        exact ⟨c, le_rfl, hnone, (clipped_iff_flag hrst hstrobe).mpr hflag⟩

/-- What the output takes over in a cycle is the flag of the cycle before. -/
theorem clippedSince_of_overflow (hreset : (inp 0).rst = true) (hc : 1 ≤ c)
    (hoverflow : (run s inp c).overflow = true) : ClippedSince s inp 2 c := by
  induction c, hc using Nat.le_induction with
  | base =>
    rw [run_succ_of_rst hreset] at hoverflow
    cases hoverflow
  | succ c hc ih =>
    cases hrst : (inp c).rst with
    | true =>
      rw [run_succ_of_rst hrst] at hoverflow
      cases hoverflow
    | false =>
      rw [overflow_succ hrst, Bool.or_eq_true] at hoverflow
      rcases hoverflow with hflag | hoverflow
      · exact (clippedSince_of_flag hreset hc hflag).succ hrst
      · exact ((ih hoverflow).succ hrst).mono (by decide)

/-- The flag is taken over before the next sample can clear it. -/
theorem overflow_of_clippedSince (h : ClippedSince s inp 2 c) : (run s inp c).overflow = true := by
  obtain ⟨t, ht, hnone, hclipped⟩ := h
  induction c, ht using Nat.le_induction with
  | base =>
    have hlow := hnone t le_rfl (by omega)
    have hlow' := hnone (t + 1) (Nat.le_succ t) (Nat.lt_succ_self _)
    rw [overflow_succ hlow', (clipped_iff_flag hlow hclipped.strobe).mp hclipped, Bool.true_or]
  | succ c ht ih =>
    rw [overflow_succ (hnone c (by omega) (Nat.lt_succ_self c)), ih hnone.of_succ, Bool.or_true]

/-- The output is high just when a sample was clipped in some cycle since the
last reset, two cycles ago or earlier. -/
theorem overflow_iff (s : Regs P) {inp : ℕ → In} (hreset : (inp 0).rst = true) {c : ℕ} (hc : 1 ≤ c) :
    (run s inp c).overflow = true ↔ ClippedSince s inp 2 c :=
  ⟨clippedSince_of_overflow hreset hc, overflow_of_clippedSince⟩

theorem halver_overflow_iff :
    (run (default : Regs halver) ones 20).overflow = true ∧
      ClippedSince (default : Regs halver) ones 2 20 := by
  have hoverflow : (run (default : Regs halver) ones 20).overflow = true := by decide +kernel
  exact ⟨hoverflow, (overflow_iff default rfl (by decide)).mp hoverflow⟩

end Since

end CicDecimator
