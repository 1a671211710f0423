-- SUMMARY: One pass of Sesenta::beamf_thread over the contents of the capture BRAMs, and the recordings for which it measures the signed power and lights the loudest direction.
import Mathlib.Algebra.BigOperators.Pi
import Mathlib.Algebra.Order.Ring.Abs
import Mathlib.Algebra.Order.BigOperators.Group.Finset
import Mathlib.Data.BitVec
import Mathlib.Tactic.Linarith
import FpgaAcoustic.Signal.Loop

/-!
# Beam selection

A pass captures each direction, adds up the four microphones and takes the
power of the sum. The BRAM words reach the sum as `uint32_t`, so a negative
sample counts as `2^32` more than it is. The arithmetic on `double` is taken as
exact.
-/

namespace Sesenta

open Loop

/-! ## Driver -/

/-- `mem::mic0_range`. -/
def mic0Range : ℕ := 8192

/-- The number of `uint32_t` words of a BRAM. -/
def micSize : ℕ := mic0Range / 4

abbrev numMics : ℕ := 4
abbrev numDirections : ℕ := 4

instance : NeZero numMics := ⟨by decide⟩

abbrev MicData : Type := Fin micSize → BitVec 32

/-- The four BRAMs `mic0_br .. mic3_br`. -/
abbrev Brams : Type := Fin numMics → MicData

/-- `get_mic_ith`. -/
def getMicIth (brams : Brams) (micIdx : BitVec 32) : MicData :=
  match micIdx.toNat with
  | 0 => brams 0
  | 1 => brams 1
  | 2 => brams 2
  | 3 => brams 3
  | _ => fun _ => 0#32

/-- The LED over each microphone. -/
def mDataToMic : Fin numDirections → BitVec 8 := ![14, 8, 2, 20]

/-- `static_cast<double>` of a `uint32_t`. -/
def toDouble (word : BitVec 32) : ℤ := word.toNat

/-- The sum over the microphones of every sample. -/
def beamformedSignal (brams : Brams) : Fin micSize → ℤ :=
  Fin.foldl numMics
    (fun signal mic =>
      let micData := getMicIth brams (BitVec.ofNat 32 mic)
      Fin.foldl micSize
        (fun signal i => Function.update signal i (signal i + toDouble (micData i))) signal)
    fun _ => 0

def power (signal : Fin micSize → ℤ) : ℤ :=
  Fin.foldl micSize (fun power i => power + signal i * signal i) 0

/-- `beam_powers`, with the BRAM contents captured for each direction. -/
def beamPowers (contents : Fin numDirections → Brams) : Fin numDirections → ℤ :=
  Fin.foldl numDirections
    (fun powers dir => Function.update powers dir (power (beamformedSignal (contents dir))))
    fun _ => 0

/-- `max_direction`. -/
def maxDirection (powers : Fin numDirections → ℤ) : Fin numDirections :=
  (Fin.foldl numDirections (better powers) (0, 0)).1

/-- What a pass of the loop computes: the powers and the argument of
`set_led_sel`. -/
structure Pass where
  beamPowers : Fin numDirections → ℤ
  ledSel : BitVec 32

/-- One pass of `beamf_thread`. -/
def beamfPass (contents : Fin numDirections → Brams) : Pass where
  beamPowers := beamPowers contents
  ledSel := (mDataToMic (maxDirection (beamPowers contents))).setWidth 32

/-! ## Specification -/

/-- The 16-bit samples of the four microphones in the four directions. -/
abbrev Recording : Type := Fin numDirections → Fin numMics → Fin micSize → BitVec 16

/-- The BRAM words are sign extensions. -/
def captured (rec : Recording) (dir : Fin numDirections) : Brams :=
  fun mic i => (rec dir mic i).signExtend 32

/-- The power of the sum of the signed samples. -/
def signedPower (rec : Recording) (dir : Fin numDirections) : ℤ :=
  ∑ i, (∑ mic, (rec dir mic i).toInt) ^ 2

/-- The pass measures the signed powers and lights the first loudest direction. -/
def SelectsLoudest (rec : Recording) : Prop :=
  (∀ dir, (beamfPass (captured rec)).beamPowers dir = signedPower rec dir) ∧
    ∃ dir, IsFirstMax (signedPower rec) dir ∧
      (beamfPass (captured rec)).ledSel = (mDataToMic dir).setWidth 32

/-! ## The sums the loops compute -/

theorem getMicIth_ofNat (brams : Brams) (mic : Fin numMics) :
    getMicIth brams (BitVec.ofNat 32 mic) = brams mic := by
  match mic with
  | 0 => rfl
  | 1 => rfl
  | 2 => rfl
  | 3 => rfl

theorem beamformedSignal_eq (brams : Brams) (i : Fin micSize) :
    beamformedSignal brams i = ∑ mic, toDouble (brams mic i) := by
  have hinner : ∀ (signal : Fin micSize → ℤ) (mic : Fin numMics),
      Fin.foldl micSize (fun signal i =>
        Function.update signal i (signal i + toDouble (getMicIth brams (BitVec.ofNat 32 mic) i)))
        signal = signal + fun i => toDouble (brams mic i) := by
    intro signal mic
    rw [getMicIth_ofNat]
    exact foldl_update (fun i v => v + toDouble (brams mic i)) signal
  have hsum : beamformedSignal brams =
      (fun _ => 0) + ∑ mic, fun i => toDouble (brams mic i) := by
    rw [← foldl_add]
    simp only [beamformedSignal, hinner]
  rw [hsum, Pi.add_apply, zero_add, Finset.sum_apply]

theorem power_eq (signal : Fin micSize → ℤ) : power signal = ∑ i, signal i ^ 2 := by
  simp only [power, foldl_add, zero_add, sq]

theorem beamPowers_eq (contents : Fin numDirections → Brams) (dir : Fin numDirections) :
    beamPowers contents dir = ∑ i, (∑ mic, toDouble (contents dir mic i)) ^ 2 := by
  have hupdate : beamPowers contents = fun dir => power (beamformedSignal (contents dir)) :=
    foldl_update (fun dir _ => power (beamformedSignal (contents dir))) fun _ => 0
  simp only [hupdate, power_eq, beamformedSignal_eq]

theorem maxDirection_isFirstMax {powers : Fin numDirections → ℤ} (h : ∀ dir, 0 ≤ powers dir) :
    IsFirstMax powers (maxDirection powers) :=
  foldl_better h

/-! ## Negative samples -/

/-- A sign-extended word reads as the sample, or as `2^32` more. -/
theorem toDouble_signExtend (v : BitVec 16) :
    toDouble (v.signExtend 32) = v.toInt + if v.toInt < 0 then 2 ^ 32 else 0 := by
  have hint : (v.signExtend 32).toInt = v.toInt := BitVec.toInt_signExtend_of_le (by decide)
  have hlt := (v.signExtend 32).isLt
  rw [BitVec.toInt_eq_toNat_cond] at hint
  unfold toDouble
  split at hint <;> split <;> omega

theorem toInt_bounds (v : BitVec 16) : -2 ^ 15 ≤ v.toInt ∧ v.toInt < 2 ^ 15 := by
  have hlow := BitVec.le_toInt v
  have hhigh := BitVec.toInt_lt (x := v)
  exact ⟨hlow, hhigh⟩

theorem signedPower_nonneg (rec : Recording) (dir : Fin numDirections) :
    0 ≤ signedPower rec dir :=
  Finset.sum_nonneg fun _ _ => sq_nonneg _

/-- The sum of four words is no smaller in magnitude than the sum of the four
samples. -/
theorem sq_sum_le (v : Fin numMics → BitVec 16) :
    (∑ mic, (v mic).toInt) ^ 2 ≤ (∑ mic, toDouble ((v mic).signExtend 32)) ^ 2 := by
  have h := fun mic => toInt_bounds (v mic)
  simp only [Fin.sum_univ_four, toDouble_signExtend]
  have h₀ := h 0
  have h₁ := h 1
  have h₂ := h 2
  have h₃ := h 3
  refine sq_le_sq' ?_ ?_
  · split_ifs <;> omega
  · split_ifs <;> omega

/-- It is larger when a sample is negative. -/
theorem sq_sum_lt {v : Fin numMics → BitVec 16} {mic : Fin numMics} (hneg : (v mic).toInt < 0) :
    (∑ mic, (v mic).toInt) ^ 2 < (∑ mic, toDouble ((v mic).signExtend 32)) ^ 2 := by
  have h := fun mic => toInt_bounds (v mic)
  have hsome : (v 0).toInt < 0 ∨ (v 1).toInt < 0 ∨ (v 2).toInt < 0 ∨ (v 3).toInt < 0 := by
    match mic with
    | 0 => exact Or.inl hneg
    | 1 => exact Or.inr (Or.inl hneg)
    | 2 => exact Or.inr (Or.inr (Or.inl hneg))
    | 3 => exact Or.inr (Or.inr (Or.inr hneg))
  simp only [Fin.sum_univ_four, toDouble_signExtend]
  have h₀ := h 0
  have h₁ := h 1
  have h₂ := h 2
  have h₃ := h 3
  refine sq_lt_sq' ?_ ?_
  · split_ifs <;> omega
  · split_ifs <;> omega

/-- The measured power is the signed power when no sample is negative, and only
then. -/
theorem beamPowers_eq_signedPower_iff (rec : Recording) (dir : Fin numDirections) :
    beamPowers (captured rec) dir = signedPower rec dir ↔
      ∀ mic i, 0 ≤ (rec dir mic i).toInt := by
  rw [beamPowers_eq]
  constructor
  · intro heq mic i
    by_contra hneg
    refine heq.not_gt ?_
    exact Finset.sum_lt_sum (fun i _ => sq_sum_le fun mic => rec dir mic i)
      ⟨i, Finset.mem_univ i, sq_sum_lt (not_le.mp hneg)⟩
  · intro hpos
    have hword : ∀ mic i, toDouble (captured rec dir mic i) = (rec dir mic i).toInt := by
      intro mic i
      rw [captured, toDouble_signExtend, if_neg (not_lt.mpr (hpos mic i)), add_zero]
    simp only [hword, signedPower]

/-- The pass selects the loudest direction, with the power it has, for exactly
the recordings without a negative sample. -/
theorem selectsLoudest_iff (rec : Recording) :
    SelectsLoudest rec ↔ ∀ dir mic i, 0 ≤ (rec dir mic i).toInt := by
  constructor
  · intro h dir
    exact (beamPowers_eq_signedPower_iff rec dir).mp (h.1 dir)
  · intro hpos
    have hpowers : beamPowers (captured rec) = signedPower rec :=
      funext fun dir => (beamPowers_eq_signedPower_iff rec dir).mpr (hpos dir)
    refine ⟨fun dir => congrFun hpowers dir, maxDirection (signedPower rec), ?_, ?_⟩
    · exact maxDirection_isFirstMax (signedPower_nonneg rec)
    · rw [beamfPass, hpowers]

/-! ## A faint direction that wins -/

/-- One sample of `-1` in the first direction and one of `2` in the second. -/
def faint : Recording := fun dir mic i =>
  if mic = 0 ∧ i.val = 0 then ![-1#16, 2#16, 0#16, 0#16] dir else 0#16

/-- A sum over the samples of a recording that is silent but for one sample. -/
theorem sum_faint {g : (Fin numMics → BitVec 16) → ℤ} (hg : g (fun _ => 0#16) = 0)
    (dir : Fin numDirections) :
    ∑ i : Fin micSize, g (fun mic => faint dir mic i) =
      g fun mic => if mic = 0 then ![-1#16, 2#16, 0#16, 0#16] dir else 0#16 := by
  have hpos : 0 < micSize := by decide
  rw [Finset.sum_eq_single ⟨0, hpos⟩]
  · simp [faint]
  · intro i _ hi
    have hval : i.val ≠ 0 := fun h => hi (Fin.ext h)
    simp only [faint, hval, and_false, if_false]
    exact hg
  · intro h
    exact absurd (Finset.mem_univ _) h

theorem signedPower_faint : signedPower faint = ![1, 4, 0, 0] := by
  funext dir
  refine (sum_faint (g := fun v => (∑ mic, (v mic).toInt) ^ 2) (by decide) dir).trans ?_
  revert dir
  decide

theorem beamPowers_faint : beamPowers (captured faint) = ![(2 ^ 32 - 1) ^ 2, 4, 0, 0] := by
  funext dir
  rw [beamPowers_eq]
  refine (sum_faint (g := fun v => (∑ mic, toDouble ((v mic).signExtend 32)) ^ 2)
    (by decide) dir).trans ?_
  revert dir
  decide

/-- The second direction is the loudest, and the LED of the first is lit. -/
theorem faint_lights_first : IsFirstMax (signedPower faint) 1 ∧
    (beamfPass (captured faint)).ledSel = (mDataToMic 0).setWidth 32 ∧ ¬ SelectsLoudest faint := by
  have hloudest : IsFirstMax (signedPower faint) 1 := by
    rw [signedPower_faint]
    unfold IsFirstMax
    decide
  have hfirst : maxDirection (beamPowers (captured faint)) = 0 := by
    rw [beamPowers_faint]
    decide
  refine ⟨hloudest, by rw [beamfPass, hfirst], ?_⟩
  rintro ⟨-, dir, hdir, hled⟩
  rw [← hloudest.unique hdir, beamfPass, hfirst] at hled
  exact absurd hled (by decide)

end Sesenta
