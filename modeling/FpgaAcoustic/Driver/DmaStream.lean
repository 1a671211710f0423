-- SUMMARY: The design from the microphone pins to the sample stream of the first DMA, and the sample that each beat carries.
import FpgaAcoustic.Driver.MicPacking
import FpgaAcoustic.Rtl.Pipeline
import FpgaAcoustic.Rtl.SamplePulses

/-!
# Samples of the stream

A strobe makes one beat, but the data of the beat is read when it is accepted.
The delay lines and two more registers are between the strobe and the data, so
a beat that is accepted in one of the first two cycles still has the sample of
the strobe before.
-/

namespace AxisVariable

variable {w : ℕ} {s : Regs w} {inp : ℕ → In w} {u t T : ℕ}

/-- From a pulse to the next the beat waits for the first cycle in which the sink
is ready. -/
theorem valid_of_pulse (hreset : ∀ t, u ≤ t → (inp t).aresetn = true)
    (hfree : accepted (run s inp u) (inp u) = false) (hctrl : (inp u).ctrl = true)
    (hlow : ∀ t, u < t → t < T → (inp t).ctrl = false) (hut : u < t) (ht : t ≤ T) :
    (run s inp t).intTvalidReg = true ↔ ∀ c, u < c → c < t → (inp c).mTready = false := by
  induction t, hut using Nat.le_induction with
  | base =>
    have hstep := intTvalidReg_step (s := run s inp u) (hreset u le_rfl)
    rw [hfree, hctrl] at hstep
    exact iff_of_true hstep fun c huc hcu => absurd hcu (by omega)
  | succ t hut ih =>
    have hprev := ih (Nat.le_of_succ_le ht)
    have hstep := intTvalidReg_step (s := run s inp t) (hreset t (Nat.le_of_succ_le hut))
    rw [hlow t hut ht, accepted, Bool.false_or] at hstep
    show (step (run s inp t) (inp t)).intTvalidReg = true ↔ _
    rw [hstep, Bool.and_eq_true, Bool.not_eq_true', hprev]
    constructor
    · rintro ⟨hrefused, hquiet⟩ c huc hct
      rcases (Nat.le_of_lt_succ hct).lt_or_eq with hlt | rfl
      · exact hquiet c huc hlt
      · rw [hprev.mpr hquiet, Bool.true_and] at hrefused
        exact hrefused
    · intro hquiet
      have hready := hquiet t hut (Nat.lt_succ_self t)
      exact ⟨by rw [hready, Bool.and_false], fun c huc hct => hquiet c huc (Nat.lt_succ_of_lt hct)⟩

end AxisVariable

namespace DmaStream

open Mics (sesentaClk sesentaCic)
open Capture (delayOf)
open Pipeline (sample samplesBefore)
open MicPacking (lane)

/-- The inputs of a cycle: those of the logic, the nets of `mics_data` that
nothing drives, the two registers of the generator, and the sink. -/
structure In where
  logic : Pipeline.In
  undriven : BitVec 192
  nSamples : BitVec 32
  dmaGate : Bool
  mTready : Bool

structure Regs where
  logic : Pipeline.Regs
  regMicsData : BitVec 256
  stream : AxisStream.Regs 256 32

namespace Regs

variable (s : Regs) (i : In)

def micsData : BitVec 256 :=
  i.undriven ++ (s.logic.mics.cic 3).pcmData ++ (s.logic.mics.cic 2).pcmData ++
    (s.logic.mics.cic 1).pcmData ++ (s.logic.mics.cic 0).pcmData

def streamIn : AxisStream.In 256 32 where
  resetn := !i.logic.rst
  ctrl := (s.logic.mics.cic 0).pcmValid
  sample := s.regMicsData
  nSamples := i.nSamples
  enable := i.dmaGate
  mTready := i.mTready

end Regs

variable (ext2sc : BitVec 16 → BitVec 32)

/-- One rising edge of `clk`. -/
def step (s : Regs) (i : In) : Regs where
  logic := Pipeline.step ext2sc s.logic i.logic
  regMicsData := MicPacking.regMicsData ext2sc s.logic.capture.delay.delayedPcmData (s.micsData i)
  stream := AxisStream.step s.stream (s.streamIn i)

/-- The state in each cycle of a run. -/
def run (s : Regs) (inp : ℕ → In) : ℕ → Regs := Clocked.run (step ext2sc) s inp

/-! ## Specification -/

/-- What the generator finds at its inputs. -/
def tlastIn (s : Regs) (inp : ℕ → In) (t : ℕ) : AxisTlast.In 256 32 :=
  AxisStream.tlastIn (run ext2sc s inp t).stream ((run ext2sc s inp t).streamIn (inp t))

/-- The beats that the sink accepts in the cycles `f .. T - 1`. -/
def beats (s : Regs) (inp : ℕ → In) (f T : ℕ) : List (BitVec 256) :=
  Clocked.during (fun t => (tlastIn ext2sc s inp t).transferred)
    (fun t => (tlastIn ext2sc s inp t).mTdata) f T

/-- The cycle of strobe `k`. -/
def strobe (k : ℕ) : ℕ := 2454 + 2500 * k

/-- The gate is open and the sink is ready. -/
def takes (inp : ℕ → In) (t : ℕ) : Bool := (inp t).dmaGate && (inp t).mTready

/-- Cycle `t` takes the beat of strobe `k`. -/
structure Taken (inp : ℕ → In) (k t : ℕ) : Prop where
  after : strobe k < t
  before : t < strobe (k + 1)
  takes : takes inp t = true
  first : ∀ c, strobe k < c → c < t → DmaStream.takes inp c = false

/-- The beat of strobe `k` is accepted in one of its first two cycles. -/
def early (inp : ℕ → In) (k : ℕ) : Bool := takes inp (strobe k + 1) || takes inp (strobe k + 2)

/-- What the four lanes have of strobe `k`. -/
def words (inp : ℕ → In) (m : BitVec 32) (k : ℕ) (j : Fin 4) : BitVec 32 :=
  ext2sc (sample (fun t => (inp t).logic) j ((k : ℤ) - (early inp k).toNat - delayOf m j))

/-- The strobes `k ..` of a run with the direction `m`, of which every beat is
accepted before the next strobe, and none in the cycle of the first. -/
structure Served (s : Regs) (inp : ℕ → In) (m : BitVec 32) (k n : ℕ) : Prop where
  reset : Clocked.ResetFirst fun t => (inp t).logic.rst
  free : (tlastIn ext2sc s inp (strobe k)).transferred = false
  prompt : ∀ l, k ≤ l → l < k + n → ∃ t, strobe l < t ∧ t < strobe (l + 1) ∧ takes inp t = true
  select : ∀ t, strobe k - 3 ≤ t → t ≤ strobe (k + n) → (inp t).logic.micSelect = m

/-! ## One strobe -/

section Run

variable {ext2sc} {s : Regs} {inp : ℕ → In} {m : BitVec 32} {k n t : ℕ}

theorem run_logic (t : ℕ) : (run ext2sc s inp t).logic =
    Pipeline.run ext2sc s.logic (fun t => (inp t).logic) t := by
  induction t with
  | zero => rfl
  | succ t ih => exact congrArg (Pipeline.step ext2sc · _) ih

/-- The inputs of `axis_variable`. -/
def sourceIn (ext2sc : BitVec 16 → BitVec 32) (s : Regs) (inp : ℕ → In) (t : ℕ) :
    AxisVariable.In 256 :=
  AxisStream.sourceIn (run ext2sc s inp t).stream ((run ext2sc s inp t).streamIn (inp t))

theorem run_source (t : ℕ) : (run ext2sc s inp t).stream.source =
    AxisVariable.run s.stream.source (sourceIn ext2sc s inp) t := by
  induction t with
  | zero => rfl
  | succ t ih => exact congrArg (AxisVariable.step · _) ih

theorem mTready_sourceIn (t : ℕ) : (sourceIn ext2sc s inp t).mTready = takes inp t := by
  show (tlastIn ext2sc s inp t).gate.inputReady = _
  rw [AxisTlast.In.gate_eq]
  show (if (inp t).dmaGate then _ else _ : AxisTlast.Gate 256).inputReady = _
  unfold takes
  cases (inp t).dmaGate <;> rfl

/-- The sink takes what the source gives. -/
theorem transferred_eq (t : ℕ) : (tlastIn ext2sc s inp t).transferred =
    AxisVariable.accepted (AxisVariable.run s.stream.source (sourceIn ext2sc s inp) t)
      (sourceIn ext2sc s inp t) := by
  rw [AxisTlast.In.transferred_eq, ← run_source]
  rfl

theorem ctrl_sourceIn (hreset : Clocked.ResetFirst fun t => (inp t).logic.rst) (ht : 1 ≤ t) :
    (sourceIn ext2sc s inp t).ctrl = Clocked.train 2454 2500 t := by
  show ((run ext2sc s inp t).logic.mics.cic 0).pcmValid = _
  rw [run_logic]
  exact Pipeline.pcmValid_captured hreset ht

theorem one_le_strobe (k : ℕ) : 1 ≤ strobe k := by
  unfold strobe
  omega

theorem strobe_succ (k : ℕ) : strobe (k + 1) = strobe k + 2500 := by
  unfold strobe
  omega

theorem train_strobe (k : ℕ) : Clocked.train 2454 2500 (strobe k) = true := by
  refine decide_eq_true ⟨Nat.le_add_right _ _, ?_⟩
  rw [strobe, Nat.add_sub_cancel_left]
  exact Nat.dvd_mul_right _ _

theorem train_between (hlt : strobe k < t) (ht : t < strobe (k + 1)) :
    Clocked.train 2454 2500 t = false := by
  unfold strobe at hlt ht
  refine decide_eq_false ?_
  omega

/-- The beat of a strobe waits until it is taken. -/
theorem valid_between (hreset : Clocked.ResetFirst fun t => (inp t).logic.rst)
    (hfree : (tlastIn ext2sc s inp (strobe k)).transferred = false) (hlt : strobe k < t)
    (ht : t ≤ strobe (k + 1)) : (run ext2sc s inp t).stream.source.intTvalidReg = true ↔
      ∀ c, strobe k < c → c < t → takes inp c = false := by
  have hone := one_le_strobe k
  have haresetn : ∀ t, strobe k ≤ t → (sourceIn ext2sc s inp t).aresetn = true := by
    intro t ht
    show (!(inp t).logic.rst) = true
    rw [hreset.low (hone.trans ht)]
    rfl
  have hctrl : (sourceIn ext2sc s inp (strobe k)).ctrl = true := by
    rw [ctrl_sourceIn hreset hone]
    exact train_strobe k
  have hlow : ∀ t, strobe k < t → t < strobe (k + 1) → (sourceIn ext2sc s inp t).ctrl = false := by
    intro t hlt ht
    rw [ctrl_sourceIn hreset (hone.trans hlt.le)]
    exact train_between hlt ht
  rw [transferred_eq] at hfree
  rw [run_source, AxisVariable.valid_of_pulse haresetn hfree hctrl hlow hlt ht]
  simp only [mTready_sourceIn]

/-- It is transferred in the first cycle that takes it. -/
theorem transferred_between (hreset : Clocked.ResetFirst fun t => (inp t).logic.rst)
    (hfree : (tlastIn ext2sc s inp (strobe k)).transferred = false) (hlt : strobe k < t)
    (ht : t ≤ strobe (k + 1)) : (tlastIn ext2sc s inp t).transferred = true ↔
      takes inp t = true ∧ ∀ c, strobe k < c → c < t → takes inp c = false := by
  rw [transferred_eq, AxisVariable.accepted, mTready_sourceIn, ← run_source, Bool.and_eq_true,
    valid_between hreset hfree hlt ht, and_comm]

/-- The lanes of the source show the delay lines of two cycles before. -/
theorem lane_sTdata (hreset : Clocked.ResetFirst fun t => (inp t).logic.rst) (ht : 1 ≤ t)
    (hsel : (inp t).logic.micSelect = m) (j : Fin 4) :
    lane (tlastIn ext2sc s inp (t + 4)).sTdata j =
      ext2sc (sample (fun t => (inp t).logic) j
        ((samplesBefore (t + 1) : ℤ) - 1 - delayOf m j)) := by
  have hdata : (tlastIn ext2sc s inp (t + 4)).sTdata = (run ext2sc s inp (t + 3)).regMicsData := by
    show (AxisVariable.step _ (sourceIn ext2sc s inp (t + 3))).intTdataReg = _
    have haresetn : (sourceIn ext2sc s inp (t + 3)).aresetn = true := by
      show (!(inp (t + 3)).logic.rst) = true
      rw [hreset.low (by omega)]
      rfl
    rw [AxisVariable.step, haresetn]
    rfl
  have hlane : lane (run ext2sc s inp (t + 3)).regMicsData j =
      ext2sc ((run ext2sc s inp (t + 2)).logic.capture.delay.delayedPcmData j) :=
    MicPacking.lane_regMicsData ext2sc _ _ j
  rw [hdata, hlane, run_logic, Pipeline.delayedPcmData_run hreset ht m hsel j]

/-- The beat that a strobe makes, in the cycle that takes it. -/
theorem lane_mTdata (hreset : Clocked.ResetFirst fun t => (inp t).logic.rst)
    (htaken : Taken inp k t) (hsel : (inp (t - 4)).logic.micSelect = m) (j : Fin 4) :
    lane (tlastIn ext2sc s inp t).mTdata j = words ext2sc inp m k j := by
  obtain ⟨hlt, ht, htakes, hfirst⟩ := htaken
  have hgate : (tlastIn ext2sc s inp t).enable = true := (Bool.and_eq_true_iff.mp htakes).1
  obtain ⟨v, rfl⟩ : ∃ v, t = v + 4 := Nat.exists_eq_add_of_le' (by unfold strobe at hlt; omega)
  rw [Nat.add_sub_cancel] at hsel
  rw [AxisTlast.In.mTdata_of_enable _ hgate,
    lane_sTdata hreset (by unfold strobe at hlt; omega) hsel, words]
  -- The sample of the strobe is in the data from the third cycle on.
  have hcount : (samplesBefore (v + 1) : ℤ) - 1 = (k : ℤ) - (early inp k).toNat := by
    unfold strobe at hlt ht
    rcases Nat.lt_or_ge (strobe k + 2) (v + 4) with hlate | hsoon
    · have hearly : early inp k = false := by
        rw [early, hfirst _ (by omega) (by omega), hfirst _ (by omega) hlate]
        rfl
      rw [hearly]
      unfold strobe at hlate
      unfold samplesBefore
      simp only [Bool.toNat_false]
      omega
    · have hearly : early inp k = true := by
        unfold strobe at hsoon
        obtain hone | htwo : v + 4 = strobe k + 1 ∨ v + 4 = strobe k + 2 := by
          unfold strobe
          omega
        · rw [early, ← hone, htakes, Bool.true_or]
        · rw [early, ← htwo, htakes, Bool.or_true]
      rw [hearly]
      unfold strobe at hsoon
      unfold samplesBefore
      simp only [Bool.toNat_true]
      omega
  rw [hcount]

/-! ## Many strobes -/

theorem exists_taken (h : ∃ t, strobe k < t ∧ t < strobe (k + 1) ∧ takes inp t = true) :
    ∃ t, Taken inp k t := by
  obtain ⟨hlt, ht, htakes⟩ := Nat.find_spec h
  refine ⟨Nat.find h, hlt, ht, htakes, fun c hc hcf => ?_⟩
  by_contra htrue
  exact Nat.find_min h hcf ⟨hc, hcf.trans ht, Bool.not_eq_false _ ▸ htrue⟩

/-- Until the next strobe, the beat is transferred in the cycle that takes it
and in no other. -/
theorem transferred_iff_taken (hreset : Clocked.ResetFirst fun t => (inp t).logic.rst)
    (hfree : (tlastIn ext2sc s inp (strobe k)).transferred = false) (h : Taken inp k t) {u : ℕ}
    (hu : strobe k < u) (hle : u ≤ strobe (k + 1)) :
    (tlastIn ext2sc s inp u).transferred = true ↔ u = t := by
  rw [transferred_between hreset hfree hu hle]
  constructor
  · rintro ⟨htakes, hfirst⟩
    rcases Nat.lt_trichotomy u t with hlt | heq | hgt
    · exact absurd ((h.first u hu hlt).symm.trans htakes) Bool.false_ne_true
    · exact heq
    · exact absurd ((hfirst t h.after hgt).symm.trans h.takes) Bool.false_ne_true
  · rintro rfl
    exact ⟨h.takes, h.first⟩

/-- A strobe makes one beat, and leaves none for the next. -/
theorem during_strobe {α : Type} (x : ℕ → α)
    (hreset : Clocked.ResetFirst fun t => (inp t).logic.rst)
    (hfree : (tlastIn ext2sc s inp (strobe k)).transferred = false) (h : Taken inp k t) :
    (tlastIn ext2sc s inp (strobe (k + 1))).transferred = false ∧
      Clocked.during (fun t => (tlastIn ext2sc s inp t).transferred) x (strobe k + 1)
        (strobe (k + 1) + 1) = [x t] := by
  have hother : ∀ u, strobe k < u → u ≤ strobe (k + 1) → u ≠ t →
      (tlastIn ext2sc s inp u).transferred = false := by
    intro u hu hle hne
    rw [← Bool.not_eq_true, transferred_iff_taken hreset hfree h hu hle]
    exact hne
  refine ⟨hother _ (h.after.trans h.before) le_rfl h.before.ne', ?_⟩
  exact Clocked.during_eq_singleton h.after (Nat.lt_succ_of_lt h.before)
    ((transferred_iff_taken hreset hfree h h.after h.before.le).mpr rfl)
    fun u hu hle hne => hother u hu (Nat.le_of_lt_succ hle) hne

theorem strobe_mono {l l' : ℕ} (h : l ≤ l') : strobe l ≤ strobe l' := by
  unfold strobe
  omega

/-- Each strobe makes one beat, in order. -/
theorem during_strobes {α : Type} (x : ℕ → α) {times : ℕ → ℕ}
    (hreset : Clocked.ResetFirst fun t => (inp t).logic.rst)
    (hfree : (tlastIn ext2sc s inp (strobe k)).transferred = false)
    (h : ∀ l, l < n → Taken inp (k + l) (times l)) :
    (tlastIn ext2sc s inp (strobe (k + n))).transferred = false ∧
      Clocked.during (fun t => (tlastIn ext2sc s inp t).transferred) x (strobe k + 1)
        (strobe (k + n) + 1) = (List.range n).map fun l => x (times l) := by
  induction n with
  | zero => exact ⟨hfree, Clocked.during_self _ _ _⟩
  | succ n ih =>
    obtain ⟨hnext, hbeats⟩ := ih fun l hl => h l (Nat.lt_succ_of_lt hl)
    obtain ⟨hfree', hlast⟩ := during_strobe x hreset hnext (h n (Nat.lt_succ_self n))
    refine ⟨hfree', ?_⟩
    rw [← Nat.add_assoc,
      Clocked.during_append (Nat.succ_le_succ (strobe_mono (Nat.le_add_right k n)))
        (Nat.succ_le_succ (strobe_mono (Nat.le_succ (k + n)))),
      hbeats, hlast, List.range_succ, List.map_append]
    rfl

/-- Each beat has the sample of its strobe, or of the strobe before if it is taken
early. -/
theorem served_beats (h : Served ext2sc s inp m k n) :
    (tlastIn ext2sc s inp (strobe (k + n))).transferred = false ∧
      (beats ext2sc s inp (strobe k + 1) (strobe (k + n) + 1)).map
          (fun beat (j : Fin 4) => lane beat j) =
        (List.range n).map fun l => words ext2sc inp m (k + l) := by
  have htaken : ∀ l, ∃ t, l < n → Taken inp (k + l) t := by
    intro l
    by_cases hl : l < n
    · obtain ⟨t, ht⟩ := exists_taken (h.prompt (k + l) (Nat.le_add_right k l) (by omega))
      exact ⟨t, fun _ => ht⟩
    · exact ⟨0, fun hlt => absurd hlt hl⟩
  choose times htimes using htaken
  obtain ⟨hfree, hbeats⟩ :=
    during_strobes (fun t => (tlastIn ext2sc s inp t).mTdata) h.reset h.free htimes
  refine ⟨hfree, ?_⟩
  rw [beats, hbeats, List.map_map]
  refine List.map_congr_left fun l hl => ?_
  have hl := List.mem_range.mp hl
  have ht := htimes l hl
  funext j
  refine lane_mTdata h.reset ht (h.select _ ?_ ?_) j
  · have hmono := strobe_mono (Nat.le_add_right k l)
    have hafter := ht.after
    omega
  · have hmono := strobe_mono (show k + l + 1 ≤ k + n by omega)
    have hbefore := ht.before
    omega

end Run

/-- Registers that are all zero. -/
def cleared : Regs := ⟨Pipeline.cleared, 0, ⟨⟨0, false⟩, ⟨0, 0⟩⟩⟩

/-- The gate opens behind the first strobe, with a sink that is always ready. -/
def opened (t : ℕ) : In where
  logic := ⟨t == 0, fun _ => true, false, 0#32⟩
  undriven := 0
  nSamples := 16
  dmaGate := decide (strobe 0 < t)
  mTready := true

theorem opened_served (n : ℕ) : Served (BitVec.signExtend 32) cleared opened 0#32 0 n where
  reset := ⟨rfl, fun t => by simp [opened]⟩
  free := by
    have hclosed : takes opened (strobe 0) = false := by
      rw [takes, opened, decide_eq_false (Nat.lt_irrefl _), Bool.false_and]
    rw [transferred_eq, AxisVariable.accepted, mTready_sourceIn, hclosed, Bool.and_false]
  prompt l _ _ := by
    refine ⟨strobe l + 1, Nat.lt_succ_self _, by unfold strobe; omega, ?_⟩
    have hopen : strobe 0 < strobe l + 1 := by
      unfold strobe
      omega
    rw [takes, opened, decide_eq_true hopen, Bool.true_and]
  select _ _ _ := rfl

theorem opened_beats :
    (tlastIn (BitVec.signExtend 32) cleared opened (strobe (0 + 3))).transferred = false ∧
      (beats (BitVec.signExtend 32) cleared opened (strobe 0 + 1) (strobe (0 + 3) + 1)).map
          (fun beat (j : Fin 4) => lane beat j) =
        (List.range 3).map fun l => words (BitVec.signExtend 32) opened 0#32 (0 + l) :=
  served_beats (opened_served 3)

end DmaStream
