-- SUMMARY: The register-level model of clk_gen.v and of the decimators that it clocks: when their samples are valid.
import Mathlib.Data.Nat.Log
import Mathlib.Tactic.Ring
import FpgaAcoustic.Rtl.CicDecimator

/-!
# Cadence

The divider makes a clock for the microphones, and the decimators sample it
inverted. Its low level after the reset is an edge for them, which is on the
grid of the edges that follow.
-/

namespace ClkGen

/-- The parameters of an instance. -/
structure Params where
  inputFreq : ℕ
  outputFreq : ℕ

namespace Params

variable (G : Params)

def divide : ℕ := G.inputFreq / G.outputFreq
def half : ℕ := G.divide / 2
def counterWidth : ℕ := Nat.clog 2 G.divide

end Params

/-- The registers. -/
structure Regs (counterWidth : ℕ) where
  clkCounter : BitVec counterWidth
  mClkI : Bool

abbrev Params.Regs (G : Params) : Type := ClkGen.Regs G.counterWidth

variable {G : Params}

/-- One rising edge of `clk`. -/
def step (s : G.Regs) (rst : Bool) : G.Regs :=
  if rst then ⟨0, false⟩
  else if s.clkCounter.toNat == G.half - 1 then ⟨0, !s.mClkI⟩
  else ⟨s.clkCounter + 1, s.mClkI⟩

def run (s : G.Regs) (rst : ℕ → Bool) : ℕ → G.Regs := Clocked.run step s rst

/-! ## The divided clock -/

section Run

variable {s : G.Regs} {rst : ℕ → Bool}

theorem half_lt (hdivide : 2 ≤ G.divide) : G.half < 2 ^ G.counterWidth := by
  have hle : G.divide ≤ 2 ^ G.counterWidth := Nat.le_pow_clog (by decide) G.divide
  unfold Params.half
  omega

/-- The counter and the level, so many cycles after the reset. -/
theorem run_eq (hdivide : 2 ≤ G.divide) (hreset : Clocked.ResetFirst rst) (k : ℕ) :
    (run s rst (1 + k)).clkCounter.toNat = k % G.half ∧
      (run s rst (1 + k)).mClkI = decide (k / G.half % 2 = 1) := by
  have hhalf : 1 ≤ G.half := by unfold Params.half; omega
  induction k with
  | zero =>
    have hstep : run s rst (1 + 0) = ⟨0, false⟩ := by
      show step s (rst 0) = _
      rw [step, if_pos hreset.rst_zero]
    rw [hstep, Nat.zero_mod, Nat.zero_div]
    exact ⟨rfl, rfl⟩
  | succ k ih =>
    obtain ⟨hcounter, hlevel⟩ := ih
    have hstep : run s rst (1 + (k + 1)) = step (run s rst (1 + k)) (rst (1 + k)) := rfl
    rw [hstep, step, hreset.low (Nat.le_add_right 1 k), if_neg Bool.false_ne_true]
    by_cases hlast : k % G.half = G.half - 1
    · obtain ⟨hdiv, hmod⟩ : (k + 1) / G.half = k / G.half + 1 ∧ (k + 1) % G.half = 0 := by
        rw [Nat.div_mod_unique hhalf, Nat.mul_add, Nat.mul_one]
        have := Nat.div_add_mod k G.half
        omega
      rw [if_pos (by rw [hcounter, hlast]; exact beq_self_eq_true _), hdiv, hmod]
      refine ⟨rfl, ?_⟩
      show (!(run s rst (1 + k)).mClkI) = _
      rw [hlevel, ← decide_not, decide_eq_decide]
      omega
    · have hlt := Nat.mod_lt k hhalf
      obtain ⟨hdiv, hmod⟩ : (k + 1) / G.half = k / G.half ∧
          (k + 1) % G.half = k % G.half + 1 := by
        rw [Nat.div_mod_unique hhalf]
        have := Nat.div_add_mod k G.half
        omega
      rw [if_neg (by rw [hcounter, beq_iff_eq]; exact hlast), hdiv, hmod]
      refine ⟨?_, hlevel⟩
      have hroom := half_lt hdivide
      have hone : (1 : BitVec G.counterWidth).toNat = 1 :=
        Nat.mod_eq_of_lt (hhalf.trans_lt hroom)
      rw [BitVec.toNat_add, hcounter, hone]
      exact Nat.mod_eq_of_lt (by omega)

end Run

end ClkGen

namespace CicDecimator

variable {P : Params} {s : Regs P} {inp : ℕ → In} {half : ℕ}

/-! ## The strobes of a divided clock -/

/-- After the reset the level changes every `half` cycles, from high on. -/
def Divided (half : ℕ) (inp : ℕ → In) : Prop :=
  ∀ k, (inp (1 + k)).pdmClk = decide (k / half % 2 = 0)

theorem even_div_iff (hhalf : 1 ≤ half) (k : ℕ) :
    (k + 1) / half % 2 = 0 ∧ k / half % 2 = 1 ↔ 2 * half ∣ k + 1 := by
  have hdvd : 2 * half ∣ k + 1 ↔ half ∣ k + 1 ∧ 2 ∣ (k + 1) / half := by
    constructor
    · rintro ⟨m, hm⟩
      have hdiv : (k + 1) / half = 2 * m := by
        rw [hm, Nat.mul_comm 2 half, Nat.mul_assoc]
        exact Nat.mul_div_cancel_left _ hhalf
      exact ⟨⟨2 * m, by rw [hm]; ring⟩, ⟨m, hdiv⟩⟩
    · rintro ⟨hhalf', m, hm⟩
      exact ⟨m, by rw [← Nat.mul_div_cancel' hhalf', hm]; ring⟩
  rw [hdvd, Nat.succ_div]
  by_cases h : half ∣ k + 1
  · simp only [h, if_true, true_and]
    omega
  · simp only [h, if_false, false_and, iff_false]
    omega

/-- Two cycles of the synchroniser. -/
theorem run_three (hreset : FromReset inp) (k : ℕ) :
    run s inp (3 + k) =
      ((run s inp (1 + k)).advance (inp (1 + k))).advance (inp (2 + k)) := by
  have hlast : 3 + k = 2 + k + 1 := by omega
  have hfirst : 2 + k = 1 + k + 1 := by omega
  rw [hlast, hreset.run_succ s (by omega), hfirst, hreset.run_succ s (by omega)]

theorem pdmClkSync2_eq (hreset : FromReset inp) (k : ℕ) :
    (run s inp (3 + k)).pdmClkSync2 = (inp (1 + k)).pdmClk := by
  rw [run_three hreset]
  rfl

theorem pdmDataSync2_eq (hreset : FromReset inp) (k : ℕ) :
    (run s inp (3 + k)).pdmDataSync2 = (inp (1 + k)).pdmData := by
  rw [run_three hreset]
  rfl

/-- The first edge is that of the reset. -/
theorem pdmStrobe_eq (hhalf : 1 ≤ half) (hreset : FromReset inp) (hclk : Divided half inp) (k : ℕ) :
    (run s inp (3 + k)).pdmStrobe = decide (2 * half ∣ k) := by
  rw [Regs.pdmStrobe, pdmClkSync2_eq hreset, hclk]
  cases k with
  | zero =>
    have hprev : (run s inp 3).pdmClkPrev = false := by
      rw [hreset.run_succ s (by omega)]
      show (run s inp 2).pdmClkSync2 = false
      rw [hreset.run_succ s (le_refl 1)]
      show (run s inp 1).pdmClkSync1 = false
      rw [hreset.run_one]
      rfl
    rw [hprev]
    simp
  | succ k =>
    have hprev : (run s inp (3 + (k + 1))).pdmClkPrev = (inp (1 + k)).pdmClk := by
      rw [← pdmClkSync2_eq (s := s) hreset, ← Nat.add_assoc, hreset.run_succ s (by omega)]
      rfl
    rw [hprev, hclk, ← decide_not, ← Bool.decide_and, decide_eq_decide, ← even_div_iff hhalf]
    omega

theorem pdmStrobe_three (hhalf : 1 ≤ half) (hreset : FromReset inp) (hclk : Divided half inp) :
    (run s inp 3).pdmStrobe = true := by
  rw [pdmStrobe_eq hhalf hreset hclk 0]
  simp

/-- The edges after the first one. -/
theorem pdmStrobe_succ (hhalf : 1 ≤ half) (hreset : FromReset inp) (hclk : Divided half inp)
    (k : ℕ) : (run s inp (4 + k)).pdmStrobe = decide (2 * half ∣ k + 1) := by
  rw [← pdmStrobe_eq (s := s) hhalf hreset hclk (k + 1)]
  congr 2
  omega

/-! ## The samples -/

/-- The counter after a strobe. -/
def counted (c : BitVec P.counterWidth) : BitVec P.counterWidth :=
  if c.toNat == P.cicDecimation - 1 then 0#(P.counterWidth) else c + 1#(P.counterWidth)

theorem counted_toNat {c : BitVec P.counterWidth} {m : ℕ} (h : c.toNat = m % P.cicDecimation) :
    (counted c).toNat = (m + 1) % P.cicDecimation := by
  have htwo := P.two_le_cicDecimation
  have hroom : P.cicDecimation ≤ 2 ^ P.counterWidth := le_two_pow_clog2 (by omega)
  have hlt := Nat.mod_lt m (Nat.lt_of_lt_of_le Nat.two_pos htwo)
  have hnext : (m + 1) % P.cicDecimation = (m % P.cicDecimation + 1) % P.cicDecimation :=
    (Nat.mod_add_mod m P.cicDecimation 1).symm
  rw [counted, h, hnext]
  by_cases hlast : m % P.cicDecimation = P.cicDecimation - 1
  · rw [if_pos (beq_iff_eq.mpr hlast), hlast, Nat.sub_add_cancel (by omega), Nat.mod_self]
    rfl
  · have hone : (1#(P.counterWidth)).toNat = 1 :=
      Nat.mod_eq_of_lt (Nat.lt_of_lt_of_le htwo hroom)
    have hsmall : m % P.cicDecimation + 1 < P.cicDecimation := by omega
    rw [if_neg (by rwa [beq_iff_eq]), BitVec.toNat_add, h, hone,
      Nat.mod_eq_of_lt (hsmall.trans_le hroom), Nat.mod_eq_of_lt hsmall]

theorem counter_succ (hreset : FromReset inp) {t : ℕ} (ht : 1 ≤ t) :
    (run s inp (t + 1)).decimationCounter =
      if (run s inp t).pdmStrobe then counted (run s inp t).decimationCounter
      else (run s inp t).decimationCounter := by
  rw [hreset.run_succ s ht]
  rfl

/-- The level after the reset comes through the synchroniser in cycle `3` only. -/
theorem pdmStrobe_early (hreset : FromReset inp) :
    (run s inp 1).pdmStrobe = false ∧ (run s inp 2).pdmStrobe = false := by
  have hsync : (run s inp 2).pdmClkSync2 = false := by
    rw [hreset.run_succ s (le_refl 1), hreset.run_one]
    rfl
  rw [hreset.run_one, Regs.pdmStrobe, Regs.pdmStrobe, hsync]
  exact ⟨rfl, rfl⟩

theorem three_le_of_strobe (hreset : FromReset inp) {t : ℕ} (ht : 1 ≤ t)
    (h : (run s inp t).pdmStrobe = true) : 3 ≤ t := by
  obtain ⟨hone, htwo⟩ := @pdmStrobe_early P s inp hreset
  by_contra hearly
  obtain rfl | rfl : t = 1 ∨ t = 2 := by omega
  · rw [hone] at h
    cases h
  · rw [htwo] at h
    cases h

theorem counter_three (hreset : FromReset inp) : (run s inp 3).decimationCounter = 0 := by
  obtain ⟨hone, htwo⟩ := @pdmStrobe_early P s inp hreset
  rw [counter_succ hreset (by omega), htwo, if_neg Bool.false_ne_true,
    counter_succ hreset (le_refl 1), hone, if_neg Bool.false_ne_true, hreset.run_one]
  rfl

/-- The strobe of the reset is counted first. -/
theorem counter_four (hhalf : 1 ≤ half) (hreset : FromReset inp) (hclk : Divided half inp) :
    (run s inp 4).decimationCounter.toNat = 1 % P.cicDecimation := by
  rw [counter_succ hreset (by omega), pdmStrobe_three hhalf hreset hclk, if_pos rfl,
    counter_three hreset]
  exact counted_toNat (m := 0) (Nat.zero_mod _).symm

/-- The counter is that of the strobes so far. -/
theorem counter_eq (hhalf : 1 ≤ half) (hreset : FromReset inp) (hclk : Divided half inp) (k : ℕ) :
    (run s inp (4 + k)).decimationCounter.toNat = (1 + k / (2 * half)) % P.cicDecimation := by
  have hticks : (run s inp (4 + k)).decimationCounter =
      counted^[k / (2 * half)] (run s inp 4).decimationCounter := by
    apply @Clocked.iterate_of_ticks _ _ (fun t => (run s inp t).decimationCounter)
      (fun t => (run s inp t).pdmStrobe)
    · intro u hu
      exact counter_succ hreset (by omega)
    · exact pdmStrobe_succ hhalf hreset hclk
  have hcount : ∀ m, (counted^[m] (run s inp 4).decimationCounter).toNat =
      (1 + m) % P.cicDecimation := by
    intro m
    induction m with
    | zero => exact counter_four hhalf hreset hclk
    | succ m ih =>
      rw [Function.iterate_succ_apply']
      exact counted_toNat ih
  rw [hticks, hcount]

/-- The cycle of the first valid sample. -/
def firstValid (half decimation : ℕ) : ℕ := 4 + 2 * half * (decimation - 1)

theorem pcmValid_succ (hreset : FromReset inp) {t : ℕ} (ht : 1 ≤ t) :
    (run s inp (t + 1)).pcmValid = ((run s inp t).pdmStrobe &&
      (run s inp t).decimationCounter.toNat == P.cicDecimation - 1) := by
  rw [hreset.run_succ s ht]
  rfl

theorem pcmValid_early (hreset : FromReset inp) {t : ℕ} (hle : 1 ≤ t) (hlt : t ≤ 4) :
    (run s inp t).pcmValid = false := by
  obtain ⟨hone, htwo⟩ := @pdmStrobe_early P s inp hreset
  have hzero : ((run s inp 3).decimationCounter.toNat == P.cicDecimation - 1) = false := by
    have htwo := P.two_le_cicDecimation
    rw [counter_three hreset]
    exact beq_false_of_ne (by show 0 ≠ _; omega)
  obtain rfl | rfl | rfl | rfl : t = 1 ∨ t = 2 ∨ t = 3 ∨ t = 4 := by omega
  · rw [hreset.run_one]
    rfl
  · rw [pcmValid_succ hreset (le_refl 1), hone, Bool.false_and]
  · rw [pcmValid_succ hreset (by omega), htwo, Bool.false_and]
  · rw [pcmValid_succ hreset (by omega), hzero, Bool.and_false]

/-- A strobe is that of a sample when all strobes since the last sample are. -/
theorem sample_iff {p R : ℕ} (hp : 1 ≤ p) (hR : 2 ≤ R) (k : ℕ) :
    p ∣ k + 1 ∧ (1 + k / p) % R = R - 1 ↔
      4 + p * (R - 1) ≤ 5 + k ∧ p * R ∣ 5 + k - (4 + p * (R - 1)) := by
  have hstrobe : ∀ m, k + 1 = p * (m + 1) → 1 + k / p = m + 1 := by
    intro m hm
    have hk : k = p * m + (p - 1) := by
      rw [Nat.mul_add] at hm
      omega
    rw [hk, Nat.mul_add_div hp, Nat.div_eq_of_lt (by omega)]
    omega
  have hle : ∀ q, R - 1 ≤ R * q + (R - 1) := fun q => Nat.le_add_left ..
  constructor
  · rintro ⟨⟨m, hm⟩, hlast⟩
    obtain ⟨m, rfl⟩ : ∃ m', m = m' + 1 := Nat.exists_eq_add_one_of_ne_zero (by rintro rfl; omega)
    rw [hstrobe m hm] at hlast
    have hsplit := Nat.div_add_mod (m + 1) R
    rw [hlast] at hsplit
    have hwhole : k + 1 = p * R * ((m + 1) / R) + p * (R - 1) := by
      rw [hm, ← hsplit, Nat.mul_add, Nat.mul_assoc]
      congr 2
      rw [hsplit]
    exact ⟨by omega, (m + 1) / R, by omega⟩
  · rintro ⟨hge, q, hq⟩
    have hwhole : k + 1 = p * (R * q + (R - 2) + 1) := by
      have hsplit : p * (R * q + (R - 2) + 1) = p * R * q + p * (R - 1) := by
        rw [show R * q + (R - 2) + 1 = R * q + (R - 1) by omega, Nat.mul_add, Nat.mul_assoc]
      omega
    refine ⟨⟨_, hwhole⟩, ?_⟩
    rw [hstrobe _ hwhole, show R * q + (R - 2) + 1 = R - 1 + R * q by omega,
      Nat.add_mul_mod_self_left, Nat.mod_eq_of_lt (by omega)]

theorem pcmValid_eq (hhalf : 1 ≤ half) (hreset : FromReset inp) (hclk : Divided half inp) {t : ℕ}
    (ht : 1 ≤ t) :
    (run s inp t).pcmValid =
      Clocked.train (firstValid half P.cicDecimation) (2 * half * P.cicDecimation) t := by
  have htwo := P.two_le_cicDecimation
  rcases Nat.lt_or_ge 4 t with hlate | hearly
  · obtain ⟨k, rfl⟩ := Nat.exists_eq_add_of_le hlate
    rw [show 4 + 1 + k = 4 + k + 1 by omega, pcmValid_succ hreset (by omega),
      pdmStrobe_succ hhalf hreset hclk,
      counter_eq hhalf hreset hclk, Bool.eq_iff_iff, Bool.and_eq_true, decide_eq_true_iff,
      beq_iff_eq, sample_iff (by omega) htwo, Clocked.train, decide_eq_true_iff, firstValid,
      show 4 + k + 1 = 5 + k by omega]
  · rw [pcmValid_early hreset ht hearly]
    have hpos : 1 ≤ 2 * half * (P.cicDecimation - 1) :=
      Nat.mul_pos (by omega) (by omega)
    refine (decide_eq_false fun ⟨hle, _⟩ => ?_).symm
    unfold firstValid at hle
    omega

end CicDecimator

/-! ## The microphones -/

namespace Mics

variable (G : ClkGen.Params) (P : CicDecimator.Params) (ι : Type)

/-- The inputs of a cycle, with one line for each microphone. -/
structure In where
  rst : Bool
  mData : ι → Bool

/-- The registers of the divider and of the decimators. -/
structure Regs where
  clkGen : G.Regs
  cic : ι → CicDecimator.Regs P

variable {G P ι}

def cicInput (s : Regs G P ι) (i : In ι) (mic : ι) : CicDecimator.In :=
  ⟨i.rst, !s.clkGen.mClkI, i.mData mic⟩

/-- One rising edge of `clk`. -/
def step (s : Regs G P ι) (i : In ι) : Regs G P ι where
  clkGen := ClkGen.step s.clkGen i.rst
  cic mic := CicDecimator.step (s.cic mic) (cicInput s i mic)

def run (s : Regs G P ι) (inp : ℕ → In ι) : ℕ → Regs G P ι := Clocked.run step s inp

section Run

variable {s : Regs G P ι} {inp : ℕ → In ι}

theorem run_clkGen (t : ℕ) :
    (run s inp t).clkGen = ClkGen.run s.clkGen (fun t => (inp t).rst) t := by
  induction t with
  | zero => rfl
  | succ t ih =>
    show ClkGen.step (run s inp t).clkGen (inp t).rst = _
    rw [ih]
    rfl

theorem run_cic (mic : ι) (t : ℕ) :
    (run s inp t).cic mic =
      CicDecimator.run (s.cic mic) (fun t => cicInput (run s inp t) (inp t) mic) t := by
  induction t with
  | zero => rfl
  | succ t ih =>
    show CicDecimator.step ((run s inp t).cic mic) (cicInput (run s inp t) (inp t) mic) = _
    rw [ih]
    rfl

/-- The inverted clock is high first. -/
theorem divided (hdivide : 2 ≤ G.divide) (hreset : Clocked.ResetFirst fun t => (inp t).rst)
    (mic : ι) :
    CicDecimator.Divided G.half fun t => cicInput (run s inp t) (inp t) mic := by
  intro k
  show (!(run s inp (1 + k)).clkGen.mClkI) = _
  rw [run_clkGen, (ClkGen.run_eq hdivide hreset k).2, ← decide_not, decide_eq_decide]
  omega

end Run

/-- The cycles with a valid sample, which only the parameters decide. -/
def valid (G : ClkGen.Params) (P : CicDecimator.Params) : ℕ → Bool :=
  Clocked.train (CicDecimator.firstValid G.half P.cicDecimation) (2 * G.half * P.cicDecimation)

/-- The samples of all microphones are valid in the same cycles, whatever the
data, and these come at one distance for ever. -/
theorem pcm_cadence (G : ClkGen.Params) (P : CicDecimator.Params) (ι : Type)
    (hdivide : 2 ≤ G.divide) :
    Clocked.Cadence (valid G P) (2 * (G.inputFreq / G.outputFreq / 2) * P.cicDecimation) ∧
      ∀ (s : Regs G P ι) (inp : ℕ → In ι), (Clocked.ResetFirst fun t => (inp t).rst) →
        ∀ mic t, 1 ≤ t → ((run s inp t).cic mic).pcmValid = valid G P t := by
  have hhalf : 1 ≤ G.half := by unfold ClkGen.Params.half; omega
  have htwo := P.two_le_cicDecimation
  refine ⟨Clocked.train_cadence ?_ ?_, fun s inp hreset mic t ht => ?_⟩
  · exact Nat.le_trans (by decide) (Nat.le_add_right 4 _)
  · exact Nat.le_trans (show 2 ≤ 2 * G.half by omega) (Nat.le_mul_of_pos_right _ (by omega))
  · rw [run_cic]
    exact CicDecimator.pcmValid_eq hhalf hreset (divided hdivide hreset mic) ht

/-- The clock of the microphones, with a decimation by 50. -/
def sesentaClk : ClkGen.Params := ⟨120000000, 2400000⟩

def sesentaCic : CicDecimator.Params := ⟨16, 4, 50, by decide, by decide, by decide⟩

/-- A reset in the first cycle, and data that stay low. -/
def silence (t : ℕ) : In (Fin 4) := ⟨t == 0, fun _ => false⟩

theorem silence_resetFirst : Clocked.ResetFirst fun t => (silence t).rst :=
  ⟨rfl, fun t => by simp [silence]⟩

/-- Registers that are all zero. -/
def cleared : Regs sesentaClk sesentaCic (Fin 4) := ⟨⟨0, false⟩, fun _ => default⟩

/-- The first sample of the last microphone is valid in cycle 2454. -/
theorem sesenta_pcm_cadence :
    Clocked.Cadence (valid sesentaClk sesentaCic) 2500 ∧
      ((run cleared silence 2454).cic 3).pcmValid = true := by
  obtain ⟨hcadence, hvalid⟩ := pcm_cadence sesentaClk sesentaCic (Fin 4) (by decide)
  have hfirst : valid sesentaClk sesentaCic 2454 = true := by decide
  exact ⟨hcadence, (hvalid cleared silence silence_resetFirst 3 2454 (by decide)).trans hfirst⟩

end Mics
