-- SUMMARY: The capture path of sesenta.v, from the sample strobe through the delay lines to the write ports of the four BRAMs, and the alignment of the words it writes.
import FpgaAcoustic.Rtl.AddrCounter
import FpgaAcoustic.Rtl.DelayModule

/-!
# Capture path

The samples pass the delay lines and the `reg_mics_data` register, the strobe
passes the address counter. Both take one edge, so a word is the sample before
the one that is strobed. `ext2sc` is not part of the repository and is a
parameter.
-/

namespace Capture

/-- `ADDR_WIDTH` of `addr_counter_0`. -/
def addrWidth : ℕ := 11

/-- The inputs of a cycle: the active-high reset, the two control registers and
the outputs of the decimators. -/
structure In where
  rst : Bool
  startCapture : Bool
  micSelect : BitVec 32
  pcmValid : Bool
  pcmData : Fin 4 → BitVec 16

def In.delayIn (i : In) : DelayModule.In where
  rst := i.rst
  delaySelect := DelayModule.micSel i.micSelect
  pcmValid := i.pcmValid
  pcmData := i.pcmData

def In.counterIn (i : In) : AddrCounter.In where
  enable := i.pcmValid
  start := i.startCapture

structure Regs where
  delay : DelayModule.Regs
  regMicsData : Fin 4 → BitVec 32
  counter : AddrCounter.Regs addrWidth
  deriving Inhabited

/-- What the write ports of the four BRAMs see in a cycle: `addrb` and the four
`dinb`. -/
structure Write where
  addr : BitVec 32
  words : Fin 4 → BitVec 32

def Regs.write (s : Regs) : Write := ⟨s.counter.addr, s.regMicsData⟩

variable (ext2sc : BitVec 16 → BitVec 32)

/-- One rising edge of `clk`. -/
def step (s : Regs) (i : In) : Regs where
  delay := DelayModule.step s.delay i.delayIn
  regMicsData j := ext2sc (s.delay.delayedPcmData j)
  counter := AddrCounter.step s.counter i.counterIn

/-- The state in each cycle of a run. -/
def run (s : Regs) (inp : ℕ → In) : ℕ → Regs := Clocked.run (step ext2sc) s inp

/-- The writes from the cycle after `f` to before cycle `T`. -/
def writes (s : Regs) (inp : ℕ → In) (f T : ℕ) : List Write :=
  Clocked.during (fun t => (run ext2sc s inp t).counter.writeEn == BitVec.allOnes 4)
    (fun t => (run ext2sc s inp t).write) (f + 1) T

/-! ## Runs of the parts -/

section Parts

variable (s : Regs) (inp : ℕ → In) (t : ℕ)

theorem run_delay :
    (run ext2sc s inp t).delay = DelayModule.run s.delay (fun c => (inp c).delayIn) t := by
  induction t with
  | zero => rfl
  | succ t ih => exact congrArg (DelayModule.step · _) ih

theorem run_counter :
    (run ext2sc s inp t).counter = AddrCounter.run s.counter (fun c => (inp c).counterIn) t := by
  induction t with
  | zero => rfl
  | succ t ih => exact congrArg (AddrCounter.step · _) ih

theorem run_regMicsData (j : Fin 4) :
    (run ext2sc s inp (t + 1)).regMicsData j =
      ext2sc ((DelayModule.run s.delay (fun c => (inp c).delayIn) t).delayedPcmData j) := by
  rw [← run_delay ext2sc]
  rfl

end Parts

/-! ## A capture -/

/-- The number of samples taken before cycle `t`. -/
def taken (inp : ℕ → In) (t : ℕ) : ℕ := DelayModule.taken (fun c => (inp c).delayIn) t

/-- A capture of a run from reset with the streams `x`: `start` is high in cycle
`f` for the last time, strobes are three cycles apart, `mic_select` is `m` from
three cycles before `start` falls on, and `done` is low before `T`. -/
structure Capturing (s : Regs) (inp : ℕ → In) (x : Fin 4 → ℤ → BitVec 16) (m : BitVec 32)
    (f T : ℕ) : Prop where
  reset : DelayModule.FromReset fun t => (inp t).delayIn
  stream : DelayModule.Presents (fun t => (inp t).delayIn) x
  before : ∀ j, ∀ k < 0, x j k = 0#16
  apart : ∀ t u, t < u → u < t + 3 → (inp t).pcmValid = true → (inp u).pcmValid = false
  start_high : (inp f).startCapture = true
  start_low : ∀ t, f < t → t < T → (inp t).startCapture = false
  select : ∀ t, f - 2 ≤ t → t ≤ T → (inp t).micSelect = m
  not_done : ∀ t, f < t → t < T → (run ext2sc s inp t).counter.done = false

section Alignment

variable {ext2sc} {s : Regs} {inp : ℕ → In} {x : Fin 4 → ℤ → BitVec 16} {m : BitVec 32} {f t T : ℕ}

/-- The delay selected for channel `i`. -/
def delayOf (m : BitVec 32) (i : Fin 4) : ℕ :=
  (DelayModule.delayRow (DelayModule.micSel m) i).toNat

theorem Capturing.counter (h : Capturing ext2sc s inp x m f T) :
    AddrCounter.Capturing s.counter (fun c => (inp c).counterIn) f T where
  start_high := h.start_high
  start_low := h.start_low
  apart t _ _ hen := h.apart t (t + 1) (by omega) (by omega) hen
  not_done t hf hT := by
    rw [← run_counter ext2sc]
    exact h.not_done t hf hT

/-- The samples taken in a capture are the pulses counted. -/
theorem Capturing.taken_eq (h : Capturing ext2sc s inp x m f T) (ht : f + 1 ≤ t) :
    taken inp t = taken inp (f + 1) + AddrCounter.counted (fun c => (inp c).counterIn) f t := by
  induction t, ht using Nat.le_induction with
  | base => simp
  | succ t ht ih =>
    have hrst : (inp t).rst = false := h.reset.low (Nat.one_le_of_lt ht)
    have htakes : DelayModule.takes (fun c => (inp c).delayIn) t = (inp t).counterIn.enable := by
      simp [DelayModule.takes, In.delayIn, In.counterIn, hrst]
    have hsucc : taken inp (t + 1) = taken inp t + (inp t).counterIn.enable.toNat := by
      rw [← htakes]
      rfl
    rw [hsucc, ih, AddrCounter.counted_succ ht, Nat.add_assoc]

/-- The outputs of the delay module at a strobe of the capture. -/
theorem Capturing.delayedPcmData_eq (h : Capturing ext2sc s inp x m f T) (ht : f + 1 ≤ t)
    (hT : t < T) (hv : (inp t).pcmValid = true) (j : Fin 4) :
    (DelayModule.run s.delay (fun c => (inp c).delayIn) t).delayedPcmData j =
      x j ((taken inp t : ℤ) - 1 - delayOf m j) := by
  rcases Nat.lt_or_ge t 3 with hearly | hlate
  · -- No strobe came before, so the lines are empty and the delay does not matter.
    have hnone : taken inp t = 0 := by
      have hquiet : taken inp t = taken inp 1 := by
        refine Clocked.pulses_eq_of_quiet (by omega) ?_
        intro c hc hct
        have : (inp c).pcmValid = false := by
          cases hcv : (inp c).pcmValid with
          | false => rfl
          | true =>
            rw [h.apart c t hct (by omega) hcv] at hv
            exact Bool.noConfusion hv
        simp [DelayModule.takes, In.delayIn, this]
      rw [hquiet]
      exact h.reset.taken_one
    rw [h.reset.delayedPcmData_of_none_taken h.before h.stream (by omega) hnone j, hnone]
    exact (h.before j _ (by omega)).symm
  · obtain ⟨t, rfl⟩ := Nat.exists_eq_add_of_le' (Nat.le_trans (by omega : 2 ≤ 3) hlate)
    rw [h.reset.delayedPcmData_eq h.before h.stream (by omega) j]
    have hsel : ((inp t).delayIn).delaySelect = DelayModule.micSel m := by
      rw [In.delayIn, h.select t (by omega) (by omega)]
    rw [hsel]
    rfl

/-- The `n`-th write of a capture, with the samples at the common index `q`. -/
def expected (ext2sc : BitVec 16 → BitVec 32) (x : Fin 4 → ℤ → BitVec 16) (m : BitVec 32)
    (n : ℕ) (q : ℤ) : Write where
  addr := BitVec.ofNat 32 (4 * n)
  words i := ext2sc (x i (q - delayOf m i))

theorem Capturing.write_eq (h : Capturing ext2sc s inp x m f T) (ht : f + 1 ≤ t) (hT : t < T)
    (hwe : (run ext2sc s inp t).counter.writeEnableReg = true) :
    (run ext2sc s inp t).write =
      expected ext2sc x m (run ext2sc s inp t).counter.addrCount.toNat
        ((taken inp (f + 1) : ℤ) - 2 + (run ext2sc s inp t).counter.addrCount.toNat) := by
  obtain ⟨hcounting, hen⟩ := h.counter.counting (by decide) ht hT
  rw [← run_counter ext2sc] at hcounting hen
  rw [hen, Bool.and_eq_true, decide_eq_true_iff] at hwe
  obtain ⟨hlater, hvalid⟩ := hwe
  obtain ⟨t, rfl⟩ := Nat.exists_eq_add_of_le' (Nat.one_le_of_lt hlater)
  rw [Nat.add_sub_cancel] at hvalid
  have ht' : f + 1 ≤ t := by omega
  have hcount := @AddrCounter.counted_succ (fun c => (inp c).counterIn) _ _ ht'
  rw [hvalid, Bool.toNat_true] at hcount
  have htaken := h.taken_eq ht'
  have hwords : ∀ j, (run ext2sc s inp (t + 1)).regMicsData j =
      ext2sc (x j ((taken inp t : ℤ) - 1 - delayOf m j)) := by
    intro j
    rw [run_regMicsData, h.delayedPcmData_eq ht' (Nat.lt_of_succ_lt hT) hvalid j]
  rw [Regs.write, AddrCounter.Regs.addr_eq, funext hwords, hcounting.addrCount, hcount, htaken,
    expected]
  congr 1
  funext j
  congr 2
  push_cast
  omega

/-- The writes of a capture carry one sample index for the four channels, which
advances by one from each address to the next. -/
theorem Capturing.writes_aligned (h : Capturing ext2sc s inp x m f T)
    (hext : ∀ v, ext2sc v = v.signExtend 32) :
    ∃ (q : ℤ) (n : ℕ), writes ext2sc s inp f T =
      (List.range n).map fun j =>
        { addr := BitVec.ofNat 32 (4 * (j + 1))
          words := fun i => (x i (q + j - delayOf m i)).signExtend 32 } := by
  have haddr : Clocked.during (fun t => (run ext2sc s inp t).counter.writeEnableReg)
      (fun t => (run ext2sc s inp t).counter.addrCount.toNat) (f + 1) T =
      List.range' 1 (AddrCounter.counted (fun c => (inp c).counterIn) f (T - 1)) := by
    rw [← h.counter.writes_eq (by decide), AddrCounter.writes]
    simp only [run_counter]
  refine ⟨(taken inp (f + 1) : ℤ) - 1,
    AddrCounter.counted (fun c => (inp c).counterIn) f (T - 1), ?_⟩
  -- Each write is a function of its count, and the counts are consecutive.
  have hwrites : writes ext2sc s inp f T =
      (Clocked.during (fun t => (run ext2sc s inp t).counter.writeEnableReg)
        (fun t => (run ext2sc s inp t).counter.addrCount.toNat) (f + 1) T).map
        fun n => expected ext2sc x m n ((taken inp (f + 1) : ℤ) - 2 + n) := by
    rw [← Clocked.during_map, writes]
    simp only [AddrCounter.Regs.writeEn_eq]
    exact Clocked.during_congr fun t ht hT hwe => h.write_eq ht hT hwe
  rw [hwrites, haddr, List.range'_eq_map_range, List.map_map]
  refine List.map_congr_left ?_
  intro j _
  simp only [Function.comp_apply, expected, hext, Nat.add_comm 1 j]
  congr 1
  funext i
  congr 2
  push_cast
  omega

end Alignment

/-- Four different streams, strobed in every third cycle. -/
def counting (j : Fin 4) (k : ℤ) : BitVec 16 := if k < 0 then 0#16 else BitVec.ofInt 16 (k - 100 * j)

def everyThird (t : ℕ) : In where
  rst := t == 0
  startCapture := t == 0
  micSelect := 1#32
  pcmValid := t % 3 == 1
  pcmData j := counting j ((t - 1) / 3 : ℕ)

theorem everyThird_reset : DelayModule.FromReset fun t => (everyThird t).delayIn :=
  ⟨rfl, fun t => by simp [everyThird, In.delayIn]⟩

theorem everyThird_taken (t : ℕ) : taken everyThird (t + 1) = (t + 2) / 3 := by
  induction t with
  | zero => exact everyThird_reset.taken_one
  | succ t ih =>
    have hsucc : taken everyThird (t + 2) = taken everyThird (t + 1) +
        (DelayModule.takes (fun c => (everyThird c).delayIn) (t + 1)).toNat := rfl
    rw [hsucc, ih]
    by_cases hv : (t + 1) % 3 = 1
    · simp only [DelayModule.takes, In.delayIn, everyThird, hv]
      simp only [beq_self_eq_true, Nat.succ_ne_zero, beq_eq_false_iff_ne.mpr, ne_eq,
        not_false_eq_true, Bool.not_false, Bool.and_true, Bool.toNat_true]
      omega
    · simp only [DelayModule.takes, In.delayIn, everyThird, beq_eq_false_iff_ne.mpr hv,
        Bool.false_and, Bool.toNat_false]
      omega

theorem everyThird_capturing :
    Capturing (BitVec.signExtend 32) default everyThird counting 1#32 0 12 where
  reset := everyThird_reset
  stream t htakes j := by
    cases t with
    | zero => simp [DelayModule.takes, In.delayIn, everyThird] at htakes
    | succ t =>
      simp only [DelayModule.takes, In.delayIn, everyThird, Bool.and_eq_true, beq_iff_eq] at htakes
      have htaken : DelayModule.taken (fun c => (everyThird c).delayIn) (t + 1) = t / 3 := by
        have := everyThird_taken t
        unfold taken at this
        omega
      rw [htaken]
      rfl
  before j k hk := if_pos hk
  apart t u htu hu ht := by
    simp only [everyThird, beq_iff_eq, beq_eq_false_iff_ne] at ht ⊢
    omega
  start_high := rfl
  start_low t ht _ := by simp [everyThird, Nat.ne_of_gt ht]
  select _ _ _ := rfl
  not_done := by
    have hdone : ∀ t < 12,
        (run (BitVec.signExtend 32) default everyThird t).counter.done = false := by decide
    exact fun t _ hT => hdone t hT

theorem everyThird_writes_aligned :
    ∃ (q : ℤ) (n : ℕ), writes (BitVec.signExtend 32) default everyThird 0 12 =
      (List.range n).map fun j =>
        { addr := BitVec.ofNat 32 (4 * (j + 1))
          words := fun i => (counting i (q + j - delayOf 1#32 i)).signExtend 32 } :=
  everyThird_capturing.writes_aligned fun _ => rfl

end Capture
