-- SUMMARY: Exactly which sources the delays selected for a direction bring into phase on the four outputs of delay_module.
import Mathlib.Data.Int.Init
import FpgaAcoustic.Rtl.DelayModule

/-!
# Coherence of a beam

The beamforming thread writes a direction `0 .. 3` to `mic_select`, and
`delay_module` selects its row with that number. A source above the microphone
of the direction reaches channel `j` with a lag of its own. The lag and the
selected delay add up, so the outputs agree on every source only when all
channels have the same sum, which no direction achieves.
-/

namespace DelayModule

/-! ## Specification -/

/-- `DELAYS_MIC<dir>_SOURCE`: the lags, in samples, of a source above the
microphone of channel `dir`. -/
def lag : Fin 4 → Fin 4 → ℕ :=
  ![![0, 5, 8, 4], ![5, 0, 4, 8], ![8, 4, 0, 5], ![4, 8, 5, 0]]

/-- What channel `j` receives of the source `s`. -/
def received (dir : Fin 4) (s : ℤ → BitVec 16) (j : Fin 4) (n : ℤ) : BitVec 16 :=
  if 0 ≤ n then s (n - lag dir j) else 0#16

/-- The value of `mic_select` the beamforming thread writes for a direction. -/
def selectOf (dir : Fin 4) : BitVec 32 := BitVec.ofNat 32 dir.val

/-- In every run that receives the source, the four outputs agree from the
moment the lines are full, while the direction is selected. -/
def Coherent (dir : Fin 4) (s : ℤ → BitVec 16) : Prop :=
  ∀ (r : Regs) (inp : ℕ → In) (micSelect : ℕ → BitVec 32),
    FromReset inp → Presents inp (received dir s) →
    (∀ t, (inp t).delaySelect = micSel (micSelect t)) →
    ∀ t, 1 ≤ t → (∀ u, t ≤ u → u ≤ t + 2 → micSelect u = selectOf dir) →
      DelayLine.maxDelay + 1 ≤ taken inp (t + 2) →
      ∀ i j, (run r inp (t + 2)).delayedPcmData i = (run r inp (t + 2)).delayedPcmData j

/-- The sources a direction is coherent for. -/
def Admissible (dir : Fin 4) (s : ℤ → BitVec 16) : Prop :=
  match dir with
  | 0 => ∀ k ≥ 7, s k = s 7
  | 1 => ∀ k ≥ 3, s (k + 7) = s k
  | 2 => ∀ k ≥ 2, s (k + 9) = s k
  | 3 => ∀ k ≥ 3, s (k + 7) = s k

/-! ## Total delays -/

/-- The lag of channel `j` and the delay the code selects for it. -/
def totalDelay (dir j : Fin 4) : ℕ := (delayRow (micSel (selectOf dir)) j).toNat + lag dir j

theorem delayRow_le (sel : BitVec 3) (j : Fin 4) : (delayRow sel j).toNat ≤ DelayLine.maxDelay := by
  have := (delayRow sel j).isLt
  unfold DelayLine.maxDelay
  omega

section Run

variable {dir : Fin 4} {s : ℤ → BitVec 16} {r : Regs} {inp : ℕ → In} {t : ℕ}

/-- A full line shows the source behind its total delay. -/
theorem FromReset.delayedPcmData_received (h : FromReset inp)
    (hdata : Presents inp (received dir s)) (ht : 1 ≤ t)
    (hsel : (inp t).delaySelect = micSel (selectOf dir))
    (hfull : DelayLine.maxDelay + 1 ≤ taken inp (t + 2)) (j : Fin 4) :
    (run r inp (t + 2)).delayedPcmData j =
      s ((taken inp (t + 2) : ℤ) - 1 - totalDelay dir j) := by
  have hx : ∀ j, ∀ k < 0, received dir s j k = 0#16 := by
    intro j k hk
    exact if_neg (not_le.mpr hk)
  have hdelay := delayRow_le (micSel (selectOf dir)) j
  rw [h.delayedPcmData_eq hx hdata ht j, hsel, received, if_pos (by omega), totalDelay]
  refine congrArg s ?_
  push_cast
  omega

end Run

/-! ## A run for every source -/

/-- A strobe in every cycle, with the direction selected throughout. -/
def steady (dir : Fin 4) (s : ℤ → BitVec 16) (t : ℕ) : In where
  rst := t == 0
  delaySelect := micSel (selectOf dir)
  pcmValid := true
  pcmData j := received dir s j ((t : ℤ) - 1)

theorem steady_fromReset (dir : Fin 4) (s : ℤ → BitVec 16) : FromReset (steady dir s) :=
  ⟨rfl, fun t => by simp [steady]⟩

theorem steady_taken (dir : Fin 4) (s : ℤ → BitVec 16) (n : ℕ) :
    taken (steady dir s) (n + 1) = n := by
  induction n with
  | zero => exact (steady_fromReset dir s).taken_one
  | succ n ih =>
    have htakes : takes (steady dir s) (n + 1) = true := by simp [takes, steady]
    rw [taken, Clocked.pulses_succ_of_true htakes]
    exact congrArg (· + 1) ih

theorem steady_presents (dir : Fin 4) (s : ℤ → BitVec 16) :
    Presents (steady dir s) (received dir s) := by
  intro t htakes j
  cases t with
  | zero => simp [takes, steady] at htakes
  | succ n =>
    rw [steady_taken]
    simp [steady]

/-! ## Exact condition -/

/-- Coherence is agreement of the source with itself across the differences of
the total delays. -/
theorem coherent_iff_totalDelay (dir : Fin 4) (s : ℤ → BitVec 16) :
    Coherent dir s ↔ ∀ n : ℤ, DelayLine.maxDelay ≤ n →
      ∀ i j, s (n - totalDelay dir i) = s (n - totalDelay dir j) := by
  constructor
  · intro hcoh n hn i j
    obtain ⟨n, rfl⟩ := Int.eq_ofNat_of_zero_le (le_trans (Int.natCast_nonneg _) hn)
    have hn' : DelayLine.maxDelay ≤ n := by exact_mod_cast hn
    have h15 : 15 ≤ n := hn'
    have htaken : taken (steady dir s) (n + 2) = n + 1 := steady_taken dir s (n + 1)
    have hout : ∀ j, (run default (steady dir s) (n + 2)).delayedPcmData j =
        s ((n : ℤ) - totalDelay dir j) := by
      intro j
      rw [(steady_fromReset dir s).delayedPcmData_received (steady_presents dir s) (by omega) rfl
        (by omega) j, htaken]
      push_cast
      rw [add_sub_cancel_right]
    rw [← hout i, ← hout j]
    exact hcoh default (steady dir s) (fun _ => selectOf dir) (steady_fromReset dir s)
      (steady_presents dir s) (fun _ => rfl) n (by omega) (fun _ _ _ => rfl) (by omega) i j
  · intro hs r inp micSelect hreset hdata hwire t ht hsel hfull i j
    have hsel' : (inp t).delaySelect = micSel (selectOf dir) := by
      rw [hwire, hsel t le_rfl (Nat.le_add_right t 2)]
    rw [hreset.delayedPcmData_received hdata ht hsel' hfull i,
      hreset.delayedPcmData_received hdata ht hsel' hfull j]
    exact hs _ (by omega) i j

/-- A source that does not change from one sample to the next is constant. -/
theorem const_of_step {s : ℤ → BitVec 16} {k₀ : ℤ} (h : ∀ k ≥ k₀, s (k + 1) = s k) :
    ∀ k ≥ k₀, s k = s k₀ := by
  intro k hk
  induction k, hk using Int.leInduction with
  | base => rfl
  | succ k hk ih => rw [h k hk, ih]

theorem totalDelay_zero : totalDelay 0 = ![0, 5, 8, 4] := by decide
theorem totalDelay_one : totalDelay 1 = ![5, 5, 12, 12] := by decide
theorem totalDelay_two : totalDelay 2 = ![13, 4, 4, 13] := by decide
theorem totalDelay_three : totalDelay 3 = ![12, 12, 5, 5] := by decide

/-- Two pairs of channels, each with one total delay: the source repeats itself
with the difference of the two. -/
theorem agree_iff_period {s : ℤ → BitVec 16} {d : Fin 4 → ℕ} {a p : ℕ}
    (hval : ∀ j, d j = a ∨ d j = a + p) (hlow : ∃ j, d j = a) (hhigh : ∃ j, d j = a + p) :
    (∀ n : ℤ, DelayLine.maxDelay ≤ n → ∀ i j, s (n - d i) = s (n - d j)) ↔
      ∀ k ≥ (DelayLine.maxDelay : ℤ) - (a + p : ℕ), s (k + p) = s k := by
  constructor
  · intro h k hk
    obtain ⟨i, hi⟩ := hlow
    obtain ⟨j, hj⟩ := hhigh
    have := h (k + (a + p : ℕ)) (by omega) i j
    rw [hi, hj] at this
    rw [add_sub_cancel_right] at this
    rw [← this]
    refine congrArg s ?_
    push_cast
    omega
  · intro h n hn
    have hall : ∀ j, s (n - d j) = s (n - a) := by
      intro j
      rcases hval j with hj | hj
      · rw [hj]
      · rw [hj, ← h (n - (a + p : ℕ)) (by omega)]
        refine congrArg s ?_
        push_cast
        omega
    intro i j
    rw [hall i, hall j]

/-- Four total delays, two of them adjacent: the source is constant. -/
theorem agree_iff_const {s : ℤ → BitVec 16} :
    (∀ n : ℤ, DelayLine.maxDelay ≤ n →
      ∀ i j, s (n - (![0, 5, 8, 4] i : ℕ)) = s (n - (![0, 5, 8, 4] j : ℕ))) ↔
      ∀ k ≥ 7, s k = s 7 := by
  constructor
  · intro h
    have hstep : ∀ k ≥ 10, s (k + 1) = s k := by
      intro k hk
      have hgap : s (k + 5 - 4) = s (k + 5 - 5) := h (k + 5) (by unfold DelayLine.maxDelay; omega) 3 1
      rwa [add_sub_cancel_right, show k + 5 - 4 = k + 1 by omega] at hgap
    have hfar : ∀ k ≥ 7, s k = s 10 := by
      intro k hk
      have hgap : s (k + 8 - 8) = s (k + 8 - 0) := h (k + 8) (by unfold DelayLine.maxDelay; omega) 2 0
      rw [add_sub_cancel_right, sub_zero] at hgap
      rw [hgap]
      exact const_of_step hstep _ (by omega)
    intro k hk
    rw [hfar k hk, hfar 7 le_rfl]
  · intro h n hn
    have hle : ∀ j, (![0, 5, 8, 4] j : ℕ) ≤ 8 := by decide
    have hall : ∀ j, s (n - (![0, 5, 8, 4] j : ℕ)) = s 7 := by
      intro j
      have := hle j
      unfold DelayLine.maxDelay at hn
      exact h _ (by omega)
    intro i j
    rw [hall i, hall j]

/-- The outputs agree for exactly the sources that are constant, or repeat
themselves, with the difference of the total delays of the direction. -/
theorem coherent_iff (dir : Fin 4) (s : ℤ → BitVec 16) :
    Coherent dir s ↔ Admissible dir s := by
  rw [coherent_iff_totalDelay]
  match dir with
  | 0 =>
    rw [totalDelay_zero]
    exact agree_iff_const
  | 1 =>
    rw [totalDelay_one]
    exact agree_iff_period (a := 5) (p := 7) (by decide) (by decide) (by decide)
  | 2 =>
    rw [totalDelay_two]
    exact agree_iff_period (a := 4) (p := 9) (by decide) (by decide) (by decide)
  | 3 =>
    rw [totalDelay_three]
    exact agree_iff_period (a := 5) (p := 7) (by decide) (by decide) (by decide)

/-- A rising source. -/
def ramp (k : ℤ) : BitVec 16 := BitVec.ofInt 16 k

theorem toInt_ramp {k : ℤ} (hlow : -2 ^ 15 ≤ k) (hhigh : k < 2 ^ 15) : (ramp k).toInt = k := by
  rw [ramp, BitVec.toInt_ofInt]
  exact Int.bmod_eq_of_le_mul_two (by omega) (by omega)

/-- Delays compensate the lags when the sum is the same on every channel, and
only then are the outputs coherent for every source. -/
theorem coherent_forall_iff (dir : Fin 4) :
    (∀ s, Coherent dir s) ↔ ∀ i j, totalDelay dir i = totalDelay dir j := by
  constructor
  · intro hcoh i j
    have hle : ∀ dir j, totalDelay dir j ≤ 13 := by decide
    have hi := hle dir i
    have hj := hle dir j
    have hgap := (coherent_iff_totalDelay dir ramp).mp (hcoh ramp) 15 (by decide) i j
    have heq := congrArg BitVec.toInt hgap
    rw [toInt_ramp (by omega) (by omega), toInt_ramp (by omega) (by omega)] at heq
    omega
  · intro hsum s
    refine (coherent_iff_totalDelay dir s).mpr ?_
    intro n _ i j
    rw [hsum i j]

/-- No direction has such delays. -/
theorem exists_not_coherent (dir : Fin 4) : ∃ s, ¬ Coherent dir s := by
  have hsum : ∀ dir, ¬ ∀ i j, totalDelay dir i = totalDelay dir j := by decide
  exact not_forall.mp (mt (coherent_forall_iff dir).mp (hsum dir))

/-- Above the first microphone the outputs show different samples of a rising
source. -/
theorem ramp_not_coherent : ¬ Coherent 0 ramp := by
  intro h
  have hgap := (coherent_iff_totalDelay 0 ramp).mp h 15 (by decide) 0 1
  rw [totalDelay_zero] at hgap
  revert hgap
  decide

end DelayModule
