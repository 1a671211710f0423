-- SUMMARY: The design from the microphone pins to the four BRAMs, and the word each address holds after a capture.
import FpgaAcoustic.Driver.BeamSelect
import FpgaAcoustic.Rtl.Capture
import FpgaAcoustic.Rtl.Headroom

/-!
# From the pins to the memory

One clock drives the divider, the decimators, the delay lines, the address
counter and the second ports of the BRAMs. The divider alone decides when the
bits of the pins are taken and when samples are valid, so the number of a sample
tells the cycles of its bits, and the cycle in which a capture starts tells the
samples that it keeps.
-/

namespace CicDecimator

variable {P : Params} {s : Regs P} {inp : ℕ → In} {half : ℕ}

/-! ## The bits of a divided clock -/

theorem length_seenBits_strobe (hhalf : 1 ≤ half) (hreset : FromReset inp)
    (hclk : Divided half inp) {k : ℕ} (hk : 2 * half ∣ k) :
    (seenBits s inp (3 + k)).length = k / (2 * half) := by
  cases k with
  | zero =>
    obtain ⟨hone, htwo⟩ := @pdmStrobe_early P s inp hreset
    rw [Nat.zero_div, seenBits_of_quiet hreset (by decide) htwo,
      seenBits_of_quiet hreset le_rfl hone, seenBits_one hreset]
    rfl
  | succ k =>
    rw [show 3 + (k + 1) = 4 + k by omega, length_seenBits hhalf hreset hclk,
      Nat.succ_div_of_dvd hk, Nat.add_comm]

/-- Bit `n` is the level of the pin in the cycle that begins period `n` of the
divided clock. -/
theorem seenBits_eq (hhalf : 1 ≤ half) (hreset : FromReset inp) (hclk : Divided half inp) {t : ℕ}
    (ht : 1 ≤ t) :
    seenBits s inp t = (List.range (seenBits s inp t).length).map
      fun n => (inp (1 + 2 * half * n)).pdmData := by
  induction t, ht using Nat.le_induction with
  | base =>
    rw [seenBits_one hreset]
    rfl
  | succ t ht ih =>
    cases hstrobe : (run s inp t).pdmStrobe with
    | false => rwa [seenBits_of_quiet hreset ht hstrobe]
    | true =>
      obtain ⟨k, rfl⟩ := Nat.exists_eq_add_of_le (three_le_of_strobe hreset ht hstrobe)
      have hdvd : 2 * half ∣ k := by
        rw [pdmStrobe_eq hhalf hreset hclk] at hstrobe
        exact of_decide_eq_true hstrobe
      have hlength := length_seenBits_strobe (s := s) hhalf hreset hclk hdvd
      have hcycle : 2 * half * (k / (2 * half)) = k := Nat.mul_div_cancel' hdvd
      rw [seenBits_of_strobe hreset ht hstrobe, List.length_append, List.length_singleton,
        List.range_succ, List.map_append, ← ih, List.map_singleton, hlength, hcycle,
        pdmDataSync2_eq hreset]

/-- The signal of a pin, of which every bit is known. -/
def pinSignal (half : ℕ) (pin : ℕ → Bool) (k : ℤ) : ℤ :=
  if 1 ≤ k then if pin (1 + 2 * half * (k - 1).toNat) then 1 else -1 else 0

theorem pinSignal_causal (half : ℕ) (pin : ℕ → Bool) : Signal.Causal (pinSignal half pin) := by
  intro k hk
  rw [pinSignal, if_neg (by omega)]

/-- The bits seen are the signal of the pin so far. -/
theorem pdmSignal_seenBits (hhalf : 1 ≤ half) (hreset : FromReset inp) (hclk : Divided half inp)
    {t : ℕ} (ht : 1 ≤ t) {k : ℤ} (hk : k ≤ (seenBits s inp t).length) :
    pdmSignal (seenBits s inp t) k = pinSignal half (fun c => (inp c).pdmData) k := by
  unfold pdmSignal pinSignal
  by_cases hpos : 1 ≤ k
  · have hlt : (k - 1).toNat < (seenBits s inp t).length := by omega
    have hget : (seenBits s inp t)[(k - 1).toNat]? =
        some (inp (1 + 2 * half * (k - 1).toNat)).pdmData := by
      rw [seenBits_eq hhalf hreset hclk ht, List.getElem?_map, List.getElem?_range hlt]
      rfl
    rw [if_pos hpos, if_pos hpos, hget]
    show _ = if (inp (1 + 2 * half * (k - 1).toNat)).pdmData then (1 : ℤ) else -1
    cases (inp (1 + 2 * half * (k - 1).toNat)).pdmData <;> rfl
  · rw [if_neg hpos, if_neg hpos]

/-- Sample `n` of a pin, counted from `0`. -/
def pinSample (P : Params) (half : ℕ) (pin : ℕ → Bool) (n : ℤ) : BitVec P.dataWidth :=
  BitVec.ofInt P.dataWidth (clamp P.dataWidth (response P (pinSignal half pin)
    (P.cicDecimation * (n + 1) - latency P)))

/-- A valid sample is the one of its number. -/
theorem pcmData_eq (hhalf : 1 ≤ half) (hreset : FromReset inp) (hclk : Divided half inp) {t : ℕ}
    (ht : 1 ≤ t) (hvalid : (run s inp t).pcmValid = true) :
    (run s inp t).pcmData =
      pinSample P half (fun c => (inp c).pdmData) (pulseCount s inp t - 1) := by
  have hlength : P.cicDecimation * pulseCount s inp t ≤ (seenBits s inp t).length := by
    rw [hreset.pulseCount_eq ht]
    exact Nat.mul_div_le _ _
  have hresponse : unsaturated s inp t = response P (pinSignal half fun c => (inp c).pdmData)
      (P.cicDecimation * pulseCount s inp t - latency P) := by
    refine Signal.window_iterate_congr _ _ ?_
    intro k hk
    refine pdmSignal_seenBits hhalf hreset hclk ht ?_
    omega
  rw [pinSample, sub_add_cancel, ← hresponse, ← hreset.sample ht hvalid, BitVec.ofInt_toInt]

theorem pinSample_of_neg {n : ℤ} (hn : n < 0) (pin : ℕ → Bool) :
    pinSample P half pin n = 0#(P.dataWidth) := by
  have htime : (P.cicDecimation : ℤ) * (n + 1) - latency P ≤ 0 := by
    have hmul : (P.cicDecimation : ℤ) * (n + 1) ≤ 0 :=
      mul_nonpos_of_nonneg_of_nonpos (Int.natCast_nonneg _) (by omega)
    omega
  have hzero := (pinSignal_causal half pin).window_iterate P.cicDecimation P.cicStages _ htime
  have hclamp : clamp P.dataWidth 0 = 0 := by
    have hpos : (0 : ℤ) < 2 ^ (P.dataWidth - 1) := by positivity
    unfold clamp
    omega
  rw [pinSample, response, hzero, hclamp]
  rfl

end CicDecimator

/-! ## The design -/

namespace Pipeline

open Mics (sesentaClk sesentaCic)
open Capture (addrWidth delayOf)
open CicDecimator (pinSample pcmValid_eq)

/-- The inputs of a cycle: the active-high reset, the pins of the microphones and
the two control registers. -/
structure In where
  rst : Bool
  mData : Fin 4 → Bool
  startCapture : Bool
  micSelect : BitVec 32

def In.mics (i : In) : Mics.In (Fin 4) := ⟨i.rst, i.mData⟩

structure Regs where
  mics : Mics.Regs sesentaClk sesentaCic (Fin 4)
  capture : Capture.Regs
  bram : Fin 4 → BitVec addrWidth → BitVec 32

/-- The word of a BRAM of 8 KiB that the byte address `addrb` is in. -/
def wordOf (addrb : BitVec 32) : BitVec addrWidth := addrb.extractLsb' 2 addrWidth

namespace Regs

/-- The strobe is that of the first decimator. -/
def captureIn (s : Regs) (i : In) : Capture.In where
  rst := i.rst
  startCapture := i.startCapture
  micSelect := i.micSelect
  pcmValid := (s.mics.cic 0).pcmValid
  pcmData j := (s.mics.cic j).pcmData

/-- The memory of BRAM `j` after the cycle. `web` enables all bytes or none. -/
def written (s : Regs) (j : Fin 4) : BitVec addrWidth → BitVec 32 :=
  if s.capture.counter.writeEn == BitVec.allOnes 4 then
    Function.update (s.bram j) (wordOf s.capture.write.addr) (s.capture.write.words j)
  else s.bram j

end Regs

variable (ext2sc : BitVec 16 → BitVec 32)

/-- One rising edge of `clk`. -/
def step (s : Regs) (i : In) : Regs where
  mics := Mics.step s.mics i.mics
  capture := Capture.step ext2sc s.capture (s.captureIn i)
  bram := s.written

/-- The state in each cycle of a run. -/
def run (s : Regs) (inp : ℕ → In) : ℕ → Regs := Clocked.run (step ext2sc) s inp

/-! ## Specification -/

/-- Sample `n` of microphone `j`, from the levels of its pin. -/
def sample (inp : ℕ → In) (j : Fin 4) (n : ℤ) : BitVec 16 :=
  pinSample sesentaCic sesentaClk.half (fun t => (inp t).mData j) n

/-- The samples that were taken up to cycle `f`. -/
def samplesBefore (f : ℕ) : ℕ := (f + 46) / 2500

/-- The cycles of a capture: one period of the samples for each word but the
first, and the two cycles in which the last is written and `done` is raised. -/
def captureCycles : ℕ := 2500 * 2047 + 2

/-- A capture that starts in cycle `f`, up to cycle `T`: `start` falls and stays
low, and `mic_select` is `m` from two cycles before. -/
structure Started (inp : ℕ → In) (m : BitVec 32) (f T : ℕ) : Prop where
  reset : Clocked.ResetFirst fun t => (inp t).rst
  start_high : (inp f).startCapture = true
  start_low : ∀ t, f < t → t < T → (inp t).startCapture = false
  select : ∀ t, f - 2 ≤ t → t ≤ T → (inp t).micSelect = m

theorem Started.mono {inp : ℕ → In} {m : BitVec 32} {f T U : ℕ} (h : Started inp m f T)
    (hU : U ≤ T) : Started inp m f U where
  reset := h.reset
  start_high := h.start_high
  start_low t hf ht := h.start_low t hf (ht.trans_le hU)
  select t hf ht := h.select t hf (ht.trans hU)

/-- The word of address `a`, for microphone `j`. -/
def wordAt (inp : ℕ → In) (m : BitVec 32) (f : ℕ) (j : Fin 4) (a : BitVec addrWidth) : BitVec 32 :=
  ext2sc (sample inp j ((samplesBefore f : ℤ) - 2 + a.toNat - delayOf m j))

/-! ## Samples -/

theorem samplesBefore_succ (t : ℕ) :
    samplesBefore (t + 1) = samplesBefore t + (Clocked.train 2454 2500 (t + 1)).toNat := by
  have hdvd : 2500 ∣ t + 46 + 1 ↔ 2454 ≤ t + 1 ∧ 2500 ∣ t + 1 - 2454 := by omega
  rw [samplesBefore, show t + 1 + 46 = t + 46 + 1 by omega, Nat.succ_div, samplesBefore]
  by_cases h : 2500 ∣ t + 46 + 1
  · rw [if_pos h, Clocked.train, decide_eq_true (hdvd.mp h)]
    rfl
  · rw [if_neg h, Clocked.train, decide_eq_false (mt hdvd.mpr h)]
    rfl

section Run

variable {ext2sc} {s : Regs} {inp : ℕ → In} {t : ℕ}

theorem run_mics (t : ℕ) :
    (run ext2sc s inp t).mics = Mics.run s.mics (fun t => (inp t).mics) t := by
  induction t with
  | zero => rfl
  | succ t ih => exact congrArg (Mics.step · _) ih

/-- What the capture path sees in each cycle. -/
def captured (ext2sc : BitVec 16 → BitVec 32) (s : Regs) (inp : ℕ → In) (t : ℕ) : Capture.In :=
  (run ext2sc s inp t).captureIn (inp t)

theorem run_capture (t : ℕ) :
    (run ext2sc s inp t).capture = Capture.run ext2sc s.capture (captured ext2sc s inp) t := by
  induction t with
  | zero => rfl
  | succ t ih => exact congrArg (Capture.step ext2sc · _) ih

/-- The inputs of decimator `j`. -/
def cicIn (s : Regs) (inp : ℕ → In) (j : Fin 4) (t : ℕ) : CicDecimator.In :=
  Mics.cicInput (Mics.run s.mics (fun t => (inp t).mics) t) (inp t).mics j

theorem run_cic (j : Fin 4) (t : ℕ) :
    (run ext2sc s inp t).mics.cic j =
      CicDecimator.run (s.mics.cic j) (cicIn s inp j) t := by
  rw [run_mics, Mics.run_cic]
  rfl

variable (hreset : Clocked.ResetFirst fun t => (inp t).rst)

include hreset

theorem cicIn_divided (j : Fin 4) : CicDecimator.Divided 25 (cicIn s inp j) :=
  Mics.divided (G := sesentaClk) (by decide) hreset j

/-- The strobe of all four, in every 2500th cycle. -/
theorem pcmValid_cic (ht : 1 ≤ t) (j : Fin 4) :
    (CicDecimator.run (s.mics.cic j) (cicIn s inp j) t).pcmValid = Clocked.train 2454 2500 t :=
  pcmValid_eq (by decide) hreset (cicIn_divided hreset j) ht

theorem pulseCount_cic (j : Fin 4) (t : ℕ) :
    CicDecimator.pulseCount (s.mics.cic j) (cicIn s inp j) t = samplesBefore t := by
  induction t with
  | zero => rfl
  | succ t ih =>
    rw [samplesBefore_succ, ← ih, ← pcmValid_cic (s := s) hreset (Nat.le_add_left 1 t) j]
    rfl

theorem pcmValid_captured (ht : 1 ≤ t) :
    (captured ext2sc s inp t).pcmValid = Clocked.train 2454 2500 t := by
  show ((run ext2sc s inp t).mics.cic 0).pcmValid = _
  rw [run_cic]
  exact pcmValid_cic hreset ht 0

theorem takes_captured (ht : 1 ≤ t) :
    DelayModule.takes (fun c => (captured ext2sc s inp c).delayIn) t =
      Clocked.train 2454 2500 t :=
  (hreset.and_not _ ht).trans (pcmValid_captured hreset ht)

theorem taken_captured (t : ℕ) :
    DelayModule.taken (fun c => (captured ext2sc s inp c).delayIn) (t + 1) = samplesBefore t := by
  induction t with
  | zero => exact DelayModule.FromReset.taken_one ⟨hreset.rst_zero, hreset.rst_succ⟩
  | succ t ih =>
    rw [samplesBefore_succ, ← ih, ← @takes_captured ext2sc s inp _ hreset (Nat.le_add_left 1 t)]
    rfl

/-- A sample that the delay lines take is the one of its number. -/
theorem presents_captured :
    DelayModule.Presents (fun t => (captured ext2sc s inp t).delayIn) (sample inp) := by
  intro t htakes j
  cases t with
  | zero =>
    have hrst : (inp 0).rst = true := hreset.rst_zero
    simp [DelayModule.takes, captured, Capture.In.delayIn, Regs.captureIn, hrst] at htakes
  | succ t =>
    have hone : 1 ≤ t + 1 := Nat.le_add_left 1 t
    rw [takes_captured hreset hone] at htakes
    have hvalid := (pcmValid_cic (s := s) hreset hone j).trans htakes
    have hsample := CicDecimator.pcmData_eq (by decide) hreset (cicIn_divided hreset j) hone hvalid
    rw [pulseCount_cic hreset, samplesBefore_succ, htakes, Bool.toNat_true, Nat.cast_succ,
      add_sub_cancel_right] at hsample
    rw [taken_captured hreset]
    show ((run ext2sc s inp (t + 1)).mics.cic j).pcmData = _
    rw [run_cic]
    exact hsample

theorem apart_captured {u : ℕ} (htu : t < u) (hu : u < t + 3)
    (hvalid : (captured ext2sc s inp t).pcmValid = true) :
    (captured ext2sc s inp u).pcmValid = false := by
  rw [pcmValid_captured hreset (Nat.one_le_of_lt htu)]
  refine decide_eq_false ?_
  rintro ⟨hle, hdvd⟩
  rw [pcmValid_captured hreset (by omega)] at hvalid
  obtain ⟨hle', hdvd'⟩ := of_decide_eq_true hvalid
  omega

/-- What the outputs of the delay lines show in any cycle. -/
theorem delayedPcmData_run (ht : 1 ≤ t) (m : BitVec 32) (hsel : (inp t).micSelect = m)
    (j : Fin 4) : (run ext2sc s inp (t + 2)).capture.delay.delayedPcmData j =
      sample inp j ((samplesBefore (t + 1) : ℤ) - 1 - delayOf m j) := by
  have hdelay : DelayModule.FromReset fun t => (captured ext2sc s inp t).delayIn :=
    ⟨hreset.rst_zero, hreset.rst_succ⟩
  have hrow : ((captured ext2sc s inp t).delayIn).delaySelect = DelayModule.micSel m :=
    congrArg DelayModule.micSel hsel
  rw [run_capture, Capture.run_delay, hdelay.delayedPcmData_eq
    (fun j k hk => CicDecimator.pinSample_of_neg hk _) (presents_captured hreset) ht j,
    taken_captured hreset, hrow]
  rfl

end Run

/-! ## A capture -/

theorem wordOf_addr (s : AddrCounter.Regs addrWidth) : wordOf s.addr = s.addrCount := by
  have hlt : s.addrCount.toNat < 2 ^ 11 := s.addrCount.isLt
  refine BitVec.eq_of_toNat_eq ?_
  rw [wordOf, s.addr_eq, BitVec.extractLsb'_toNat, BitVec.toNat_ofNat, Nat.shiftRight_eq_div_pow]
  show 4 * s.addrCount.toNat % 2 ^ 32 / 2 ^ 2 % 2 ^ 11 = s.addrCount.toNat
  omega

section Capture

variable {ext2sc} {s : Regs} {inp : ℕ → In} {m : BitVec 32} {f t u T U : ℕ}

/-- The samples that the counter has counted since the start in cycle `f`. -/
def counted (ext2sc : BitVec 16 → BitVec 32) (s : Regs) (inp : ℕ → In) (f t : ℕ) : ℕ :=
  AddrCounter.counted (fun c => (captured ext2sc s inp c).counterIn) f t

@[simp] theorem counted_self : counted ext2sc s inp f f = 0 :=
  Nat.sub_eq_zero_of_le (Clocked.pulses_le_succ _ f)

@[simp] theorem counted_fall : counted ext2sc s inp f (f + 1) = 0 := AddrCounter.counted_fall _ f

theorem counted_succ (h : f < t) : counted ext2sc s inp f (t + 1) =
    counted ext2sc s inp f t + (captured ext2sc s inp t).pcmValid.toNat :=
  AddrCounter.counted_succ h

theorem counted_add (hreset : Clocked.ResetFirst fun t => (inp t).rst) (hft : f ≤ t) :
    counted ext2sc s inp f (t + 1) + samplesBefore f = samplesBefore t := by
  induction t, hft using Nat.le_induction with
  | base => rw [counted_fall, Nat.zero_add]
  | succ t hft ih =>
    rw [counted_succ (by omega), pcmValid_captured hreset (Nat.le_add_left 1 t),
      samplesBefore_succ, ← ih]
    omega

theorem Started.capturing (h : Started inp m f U)
    (hdone : ∀ t, f < t → t < U → (run ext2sc s inp t).capture.counter.done = false) :
    Capture.Capturing ext2sc s.capture (captured ext2sc s inp) (sample inp) m f U where
  reset := ⟨h.reset.rst_zero, h.reset.rst_succ⟩
  stream := presents_captured h.reset
  before j k hk := CicDecimator.pinSample_of_neg hk _
  apart t u htu hu hvalid := apart_captured h.reset htu hu hvalid
  start_high := h.start_high
  start_low := h.start_low
  select := h.select
  not_done t hf ht := by
    rw [← run_capture]
    exact hdone t hf ht

/-- The last count comes in time, and the cycle after its pulse has none. -/
theorem Started.exists_done (h : Started inp m f (f + captureCycles)) :
    ∃ U, f < U ∧ U ≤ f + captureCycles ∧ (run ext2sc s inp U).capture.counter.done = true := by
  by_contra hnone
  have hdone : ∀ t, f < t → t ≤ f + captureCycles →
      (run ext2sc s inp t).capture.counter.done = false := by
    intro t hf ht
    by_contra htrue
    exact hnone ⟨t, hf, ht, Bool.not_eq_false _ ▸ htrue⟩
  have hcapture := (h.capturing fun t hf ht => hdone t hf ht.le).counter
  obtain ⟨n, hn⟩ : ∃ n, n = 2500 * 2047 := ⟨_, rfl⟩
  have hlast : f + captureCycles = f + n + 1 + 1 := by
    unfold captureCycles
    omega
  obtain ⟨hcounting, hwrite⟩ :=
    hcapture.counting (by decide) (t := f + n + 1) (by omega) (by omega)
  have hcount := @counted_add ext2sc s inp f _ h.reset (Nat.le_add_right f n)
  have hmax : counted ext2sc s inp f
      (f + n + 1) = (AddrCounter.maxCount addrWidth).toNat := by
    have hperiods : samplesBefore (f + n) = samplesBefore f + 2047 := by
      unfold samplesBefore
      omega
    have hwords : (AddrCounter.maxCount addrWidth).toNat = 2047 := by decide
    omega
  -- The last count was written, so its pulse came one cycle before.
  rw [hcounting.last hmax, eq_comm, Bool.and_eq_true] at hwrite
  have hquiet : (captured ext2sc s inp (f + n + 1)).counterIn.enable = false :=
    apart_captured h.reset (Nat.lt_succ_self _) (by omega) hwrite.2
  have hrise := (hcounting.done_iff (hcapture.start_low _ (by omega) (by omega))).mpr ⟨hquiet, hmax⟩
  rw [← AddrCounter.run_succ, ← Capture.run_counter ext2sc, ← run_capture, ← hlast,
    hdone _ (by omega) le_rfl] at hrise
  cases hrise

/-- Cycle `U` is the first of the capture in which `done` is high. -/
theorem exists_first_done (hfT : f < T)
    (hdone : (run ext2sc s inp T).capture.counter.done = true) :
    ∃ U, f < U ∧ U ≤ T ∧ (run ext2sc s inp U).capture.counter.done = true ∧
      ∀ t, f < t → t < U → (run ext2sc s inp t).capture.counter.done = false := by
  have hexists : ∃ U, f < U ∧ (run ext2sc s inp U).capture.counter.done = true := ⟨T, hfT, hdone⟩
  obtain ⟨hlt, hrise⟩ := Nat.find_spec hexists
  refine ⟨Nat.find hexists, hlt, Nat.find_min' hexists ⟨hfT, hdone⟩, hrise, fun t hf ht => ?_⟩
  by_contra htrue
  exact Nat.find_min hexists ht ⟨hf, Bool.not_eq_false _ ▸ htrue⟩

/-- The write enable follows the count. -/
theorem counted_write
    (h : Capture.Capturing ext2sc s.capture (captured ext2sc s inp) (sample inp) m f U)
    (hft : f ≤ t) (ht : t + 1 < U) :
    counted ext2sc s inp f (t + 1) =
      counted ext2sc s inp f t +
        (run ext2sc s inp (t + 1)).capture.counter.writeEnableReg.toNat := by
  obtain ⟨-, hwrite⟩ := h.counter.counting (by decide) (Nat.add_le_add_right hft 1) ht
  rw [run_capture, Capture.run_counter, hwrite, Nat.add_sub_cancel]
  rcases hft.eq_or_lt with rfl | hlt
  · rw [counted_fall, counted_self, decide_eq_false (Nat.lt_irrefl _)]
    rfl
  · rw [counted_succ hlt, decide_eq_true (Nat.succ_lt_succ hlt), Bool.true_and]
    rfl

/-- The word that is written in a cycle is that of its address. -/
theorem written_eq
    (h : Capture.Capturing ext2sc s.capture (captured ext2sc s inp) (sample inp) m f U)
    (hreset : Clocked.ResetFirst fun t => (inp t).rst) (hft : f ≤ t) (ht : t + 1 < U) (j : Fin 4) :
    (run ext2sc s inp (t + 1)).written j =
      if (run ext2sc s inp (t + 1)).capture.counter.writeEnableReg then
        Function.update ((run ext2sc s inp (t + 1)).bram j)
          (run ext2sc s inp (t + 1)).capture.counter.addrCount
          (wordAt ext2sc inp m f j (run ext2sc s inp (t + 1)).capture.counter.addrCount)
      else (run ext2sc s inp (t + 1)).bram j := by
  rw [Regs.written, AddrCounter.Regs.writeEn_eq]
  cases hwe : (run ext2sc s inp (t + 1)).capture.counter.writeEnableReg with
  | false => rfl
  | true =>
    rw [run_capture] at hwe
    have hwrite := h.write_eq (Nat.add_le_add_right hft 1) ht hwe
    rw [← run_capture] at hwrite
    have htaken : Capture.taken (captured ext2sc s inp) (f + 1) = samplesBefore f :=
      taken_captured hreset f
    have haddr : wordOf (run ext2sc s inp (t + 1)).capture.write.addr =
        (run ext2sc s inp (t + 1)).capture.counter.addrCount := wordOf_addr _
    rw [if_pos rfl, if_pos rfl, haddr, hwrite, Capture.expected, htaken]
    rfl

/-- The words written so far are those of their addresses, and the others are as
they were. -/
theorem bram_succ
    (h : Capture.Capturing ext2sc s.capture (captured ext2sc s inp) (sample inp) m f U)
    (hreset : Clocked.ResetFirst fun t => (inp t).rst) (j : Fin 4) (hft : f ≤ t) (ht : t < U)
    (a : BitVec addrWidth) :
    (run ext2sc s inp (t + 1)).bram j a =
      if 1 ≤ a.toNat ∧
          a.toNat ≤ counted ext2sc s inp f t then
        wordAt ext2sc inp m f j a
      else (run ext2sc s inp (f + 1)).bram j a := by
  induction t, hft using Nat.le_induction with
  | base => rw [counted_self, if_neg (by omega)]
  | succ t hft ih =>
    have hprev := ih (Nat.lt_of_succ_lt ht)
    obtain ⟨hcounting, -⟩ := h.counter.counting (by decide) (Nat.add_le_add_right hft 1) ht
    rw [← Capture.run_counter ext2sc, ← run_capture] at hcounting
    have haddr : (run ext2sc s inp (t + 1)).capture.counter.addrCount.toNat =
        counted ext2sc s inp f (t + 1) := hcounting.addrCount
    have hcount := counted_write h hft ht
    have hstep : (run ext2sc s inp (t + 1 + 1)).bram = (run ext2sc s inp (t + 1)).written := rfl
    rw [hstep, written_eq h hreset hft ht]
    cases hwe : (run ext2sc s inp (t + 1)).capture.counter.writeEnableReg with
    | false =>
      have hsame : counted ext2sc s inp f (t + 1) = counted ext2sc s inp f t := by
        rw [hcount, hwe]
        rfl
      rw [if_neg Bool.false_ne_true, hprev, hsame]
    | true =>
      rw [hwe, Bool.toNat_true] at hcount
      rw [if_pos rfl, Function.update_apply]
      by_cases ha : a = (run ext2sc s inp (t + 1)).capture.counter.addrCount
      · have hlast : a.toNat = counted ext2sc s inp f (t + 1) := by
          rw [ha, haddr]
        rw [if_pos ha, ← ha, if_pos (by omega)]
      · have hother : a.toNat ≠ counted ext2sc s inp f (t + 1) := by
          rw [← haddr]
          exact fun heq => ha (BitVec.eq_of_toNat_eq heq)
        rw [if_neg ha, hprev]
        refine if_congr ?_ rfl rfl
        omega

/-- When `done` rises, every address but the first has been counted. -/
theorem counted_of_rise
    (h : Capture.Capturing ext2sc s.capture (captured ext2sc s inp) (sample inp) m f (t + 1))
    (hft : f < t + 1) (hrise : (run ext2sc s inp (t + 1)).capture.counter.done = true) :
    counted ext2sc s inp f t = 2 ^ 11 - 1 := by
  rw [run_capture, Capture.run_counter] at hrise
  have hwrites := h.counter.writes_done (by decide) hft hrise
  rw [h.counter.writes_eq (by decide), Nat.add_sub_cancel] at hwrites
  have hlength := congrArg List.length hwrites
  rwa [List.length_range', List.length_range', AddrCounter.toNat_maxCount] at hlength

/-- A counter that is done leaves the memories alone. -/
theorem bram_done (hf : (inp f).startCapture = true) (hfU : f < U)
    (hdone : (run ext2sc s inp U).capture.counter.done = true) (hUt : U ≤ t)
    (hlow : ∀ v, U ≤ v → v < t → (inp v).startCapture = false) :
    (run ext2sc s inp t).capture.counter.done = true ∧
      (run ext2sc s inp t).bram = (run ext2sc s inp U).bram := by
  have hquiet : ∀ u, U ≤ u → u ≤ t → (run ext2sc s inp u).capture.counter.done = true ∧
      (run ext2sc s inp u).capture.counter.writeEn = 0#4 := by
    intro u hUu hut
    rw [run_capture, Capture.run_counter] at hdone ⊢
    exact AddrCounter.run_no_write hf hfU hdone hUu fun v hv hvu => hlow v hv (hvu.trans_le hut)
  refine ⟨(hquiet t hUt le_rfl).1, ?_⟩
  induction t, hUt using Nat.le_induction with
  | base => rfl
  | succ t hUt ih =>
    rw [← ih (fun v hv hvt => hlow v hv (Nat.lt_succ_of_lt hvt)) fun u hUu hut =>
      hquiet u hUu (Nat.le_succ_of_le hut)]
    funext j
    show (run ext2sc s inp t).written j = _
    rw [Regs.written, (hquiet t hUt (Nat.le_succ t)).2]
    rfl

/-- Once `done` is high, the words are consecutive samples of the four
microphones, each as many samples back as the direction delays it, and word `0`
is that of before. -/
theorem Started.words_of_done (h : Started inp m f T) (hfT : f < T)
    (hdone : (run ext2sc s inp T).capture.counter.done = true) (j : Fin 4) :
    (run ext2sc s inp T).bram j 0 = (run ext2sc s inp (f + 1)).bram j 0 ∧
      ∀ a, a ≠ 0 → (run ext2sc s inp T).bram j a = wordAt ext2sc inp m f j a := by
  obtain ⟨U, hfU, hU, hrise, hbefore⟩ := exists_first_done hfT hdone
  obtain ⟨-, hbram⟩ := bram_done h.start_high hfU hrise hU
    fun v hUv hv => h.start_low v (hfU.trans_le hUv) hv
  have hcapture := (h.mono hU).capturing hbefore
  obtain ⟨t, rfl⟩ := Nat.exists_eq_add_of_le' (Nat.one_le_of_lt hfU)
  have hwords := bram_succ hcapture h.reset j (Nat.le_of_lt_succ hfU) (Nat.lt_succ_self t)
  have hcount := counted_of_rise hcapture hfU hrise
  refine ⟨?_, fun a ha => ?_⟩
  · rw [hbram, hwords, if_neg]
    rintro ⟨hpos, -⟩
    exact absurd hpos (by decide)
  · have hpos : a.toNat ≠ 0 := fun hzero => ha (BitVec.eq_of_toNat_eq hzero)
    have hlt : a.toNat < 2 ^ 11 := a.isLt
    rw [hbram, hwords, if_pos]
    omega

/-- A capture ends in time, whatever the pins bring. -/
theorem Started.done_of_long (h : Started inp m f (f + captureCycles)) (hT : f + captureCycles ≤ T)
    (hlow : ∀ t, f < t → t < T → (inp t).startCapture = false) :
    (run ext2sc s inp T).capture.counter.done = true := by
  obtain ⟨U, hfU, hU, hrise⟩ := @Started.exists_done ext2sc s inp m f h
  exact (bram_done h.start_high hfU hrise (hU.trans hT)
    fun v hUv hv => hlow v (hfU.trans_le hUv) hv).1

/-- The words of a capture stay until the next start. -/
theorem Started.words (h : Started inp m f (f + captureCycles)) (hT : f + captureCycles ≤ T)
    (hlow : ∀ t, f < t → t < T → (inp t).startCapture = false) :
    (run ext2sc s inp T).capture.counter.done = true ∧
      ∀ j, (run ext2sc s inp T).bram j 0 = (run ext2sc s inp (f + 1)).bram j 0 ∧
        ∀ a, a ≠ 0 → (run ext2sc s inp T).bram j a = wordAt ext2sc inp m f j a := by
  have hpos : f < f + captureCycles := Nat.lt_add_of_pos_right (Nat.succ_pos _)
  have hend := @Started.done_of_long ext2sc s inp m f _ h le_rfl h.start_low
  obtain ⟨hdone, hbram⟩ := bram_done h.start_high hpos hend hT
    fun v hv hvT => hlow v (hpos.trans_le hv) hvT
  refine ⟨hdone, ?_⟩
  rw [hbram]
  exact h.words_of_done hpos hend

end Capture

/-- Registers and memories that are all zero. -/
def cleared : Regs := ⟨Mics.cleared, default, fun _ _ => 0#32⟩

/-- A reset and a start in the first cycle, and pins that are high. -/
def loud (t : ℕ) : In := ⟨t == 0, fun _ => true, t == 0, 1#32⟩

theorem loud_start_low {t : ℕ} (ht : 0 < t) : (loud t).startCapture = false :=
  beq_false_of_ne (Nat.ne_of_gt ht)

theorem loud_started (T : ℕ) : Started loud 1#32 0 T where
  reset := ⟨rfl, fun t => by simp [loud]⟩
  start_high := rfl
  start_low _ ht _ := loud_start_low ht
  select _ _ _ := rfl

theorem loud_words :
    (run (BitVec.signExtend 32) cleared loud (0 + captureCycles)).capture.counter.done = true ∧
      ∀ j, (run (BitVec.signExtend 32) cleared loud (0 + captureCycles)).bram j 0 =
          (run (BitVec.signExtend 32) cleared loud (0 + 1)).bram j 0 ∧
        ∀ a, a ≠ 0 → (run (BitVec.signExtend 32) cleared loud (0 + captureCycles)).bram j a =
          wordAt (BitVec.signExtend 32) loud 1#32 0 j a :=
  (loud_started (0 + captureCycles)).words le_rfl fun _ ht _ => loud_start_low ht

end Pipeline
