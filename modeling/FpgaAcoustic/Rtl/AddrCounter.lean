-- SUMMARY: The register-level model of addr_counter.v, and the word addresses it writes between the fall of start and the rise of done.
import Mathlib.Data.BitVec
import FpgaAcoustic.Signal.Clocked

/-!
# Address counter

A capture starts with `start`, counts the enable pulses, and writes with every
count. The write enable and the incremented count are registered by the same
edge, so the first word written is word `1`. `done` is raised from the count.
-/

namespace AddrCounter

variable {w : ℕ}

/-- The inputs of a cycle. -/
structure In where
  enable : Bool
  start : Bool
  deriving DecidableEq, Repr

/-- The registers of a counter of `w` address bits. -/
structure Regs (w : ℕ) where
  writeEnableReg : Bool
  started : Bool
  doneCount : Bool
  addrCount : BitVec w
  deriving DecidableEq, Repr, Inhabited

/-- `max_count`, an expression of 32-bit integers. -/
def maxCount (w : ℕ) : BitVec 32 := 1#32 <<< w - 1#32

/-- One rising edge of `clk`. -/
def step (s : Regs w) (i : In) : Regs w :=
  if i.start then
    { addrCount := 0#w, started := true, doneCount := false, writeEnableReg := false }
  else if i.enable && s.started then
    { s with addrCount := s.addrCount + 1#w, writeEnableReg := true }
  -- The comparison zero-extends the narrower side.
  else if s.addrCount.toNat == (maxCount w).toNat then
    { s with started := false, doneCount := true, writeEnableReg := false }
  else
    { s with writeEnableReg := false }

namespace Regs

def done (s : Regs w) : Bool := s.doneCount
def addr (s : Regs w) : BitVec 32 := (s.addrCount.setWidth (max 32 w) <<< 2).setWidth 32
def writeEn (s : Regs w) : BitVec 4 := if s.writeEnableReg then BitVec.allOnes 4 else 0#4

end Regs

/-- The byte address of the word counted. -/
theorem Regs.addr_eq (s : Regs w) : s.addr = BitVec.ofNat 32 (4 * s.addrCount.toNat) := by
  have hlt : s.addrCount.toNat < 2 ^ max 32 w :=
    s.addrCount.isLt.trans_le (Nat.pow_le_pow_right (by omega) (Nat.le_max_right 32 w))
  refine BitVec.eq_of_toNat_eq ?_
  rw [addr, BitVec.toNat_setWidth, BitVec.toNat_shiftLeft, BitVec.toNat_setWidth,
    Nat.mod_eq_of_lt hlt, Nat.mod_mod_of_dvd _ (Nat.pow_dvd_pow 2 (Nat.le_max_left 32 w)),
    Nat.shiftLeft_eq, BitVec.toNat_ofNat, Nat.mul_comm]

@[simp] theorem Regs.writeEn_eq (s : Regs w) :
    (s.writeEn == BitVec.allOnes 4) = s.writeEnableReg := by
  unfold writeEn
  cases s.writeEnableReg <;> decide

/-- The state in each cycle of a run. -/
def run (s : Regs w) (inp : ℕ → In) : ℕ → Regs w := Clocked.run step s inp

theorem run_succ (s : Regs w) (inp : ℕ → In) (t : ℕ) :
    run s inp (t + 1) = step (run s inp t) (inp t) := rfl

/-! ## Width of the count -/

/-- The shift leaves the 32 bits of the expression from width `32` on. -/
theorem toNat_maxCount (w : ℕ) : (maxCount w).toNat = 2 ^ min w 32 - 1 := by
  have hshift : (1#32 <<< w).toNat = 2 ^ w % 2 ^ 32 := by
    simp [BitVec.toNat_shiftLeft, Nat.one_shiftLeft]
  rw [maxCount, BitVec.toNat_sub, hshift, BitVec.toNat_ofNat]
  rcases Nat.lt_or_ge w 32 with hw | hw
  · have hlt : 2 ^ w < 2 ^ 32 := Nat.pow_lt_pow_right (by omega) hw
    have hpos := Nat.two_pow_pos w
    rw [Nat.min_eq_left hw.le, Nat.mod_eq_of_lt hlt]
    omega
  · rw [Nat.min_eq_right hw, Nat.mod_eq_zero_of_dvd (Nat.pow_dvd_pow 2 hw)]
    omega

theorem maxCount_pos (hw : 1 ≤ w) : 1 ≤ (maxCount w).toNat := by
  rw [toNat_maxCount]
  have : 2 ^ 1 ≤ 2 ^ min w 32 := Nat.pow_le_pow_right (by omega) (by omega)
  omega

theorem maxCount_lt (w : ℕ) : (maxCount w).toNat < 2 ^ w := by
  rw [toNat_maxCount]
  have : 2 ^ min w 32 ≤ 2 ^ w := Nat.pow_le_pow_right (by omega) (by omega)
  have := Nat.two_pow_pos (min w 32)
  omega

/-! ## One edge of a capture -/

/-- A capture in progress that has counted `n` pulses. -/
structure Counting (n : ℕ) (s : Regs w) : Prop where
  started : s.started = true
  not_done : s.done = false
  addrCount : s.addrCount.toNat = n
  le : n ≤ (maxCount w).toNat
  last : n = (maxCount w).toNat → s.writeEnableReg = true

section Edge

variable {n : ℕ} {s : Regs w} {i : In}

theorem step_start (h : i.start = true) :
    step s i = { addrCount := 0#w, started := true, doneCount := false, writeEnableReg := false } := by
  simp [step, h]

theorem Counting.start (hw : 1 ≤ w) (h : i.start = true) : Counting 0 (step s i) := by
  have := maxCount_pos hw
  rw [step_start h]
  refine ⟨rfl, rfl, by simp, Nat.zero_le _, ?_⟩
  intro hzero
  omega

/-- The write enable is the enable pulse one cycle later. -/
theorem Counting.writeEnableReg (h : Counting n s) (hstart : i.start = false) :
    (step s i).writeEnableReg = i.enable := by
  cases hen : i.enable with
  | true => simp [step, hstart, hen, h.started]
  | false =>
    simp only [step, hstart, hen, Bool.false_and, Bool.false_eq_true, if_false]
    split <;> rfl

theorem Counting.pulse (h : Counting n s) (hstart : i.start = false) (hen : i.enable = true)
    (hwe : s.writeEnableReg = false) : Counting (n + 1) (step s i) := by
  have hlt : n < (maxCount w).toNat := by
    refine Nat.lt_of_le_of_ne h.le ?_
    intro hlast
    rw [h.last hlast] at hwe
    exact Bool.noConfusion hwe
  have hwidth := maxCount_lt w
  have hstep : step s i = { s with addrCount := s.addrCount + 1#w, writeEnableReg := true } := by
    simp [step, hstart, hen, h.started]
  rw [hstep]
  refine ⟨h.started, h.not_done, ?_, hlt, fun _ => rfl⟩
  rw [BitVec.toNat_add, h.addrCount, BitVec.toNat_ofNat, Nat.add_mod_mod,
    Nat.mod_eq_of_lt (by omega)]

theorem Counting.quiet (h : Counting n s) (hstart : i.start = false) (hen : i.enable = false)
    (hlt : n < (maxCount w).toNat) : Counting n (step s i) := by
  have hstep : step s i = { s with writeEnableReg := false } := by
    simp [step, hstart, hen, h.addrCount, Nat.ne_of_lt hlt]
  rw [hstep]
  refine ⟨h.started, h.not_done, h.addrCount, h.le, ?_⟩
  intro hlast
  omega

/-- The capture ends at the maximal count, with the first edge that sees no
pulse. -/
theorem Counting.done_iff (h : Counting n s) (hstart : i.start = false) :
    (step s i).done = true ↔ i.enable = false ∧ n = (maxCount w).toNat := by
  have hdone : s.doneCount = false := h.not_done
  cases hen : i.enable with
  | true => simp [step, Regs.done, hstart, hen, h.started, hdone]
  | false =>
    simp only [step, Regs.done, hstart, hen, h.addrCount, Bool.false_and, Bool.false_eq_true,
      if_false, true_and, beq_iff_eq]
    split
    · rename_i hlast
      simp [hlast]
    · rename_i hlast
      simp [hlast, hdone]

/-- An edge that does not end the capture counts the pulse it sees. -/
theorem Counting.advance (h : Counting n s) (hstart : i.start = false)
    (hapart : s.writeEnableReg = true → i.enable = false) (hdone : (step s i).done = false) :
    Counting (n + i.enable.toNat) (step s i) := by
  cases hen : i.enable with
  | true =>
    refine h.pulse hstart hen ?_
    cases hwe : s.writeEnableReg with
    | false => rfl
    | true => rw [hapart hwe] at hen; exact Bool.noConfusion hen
  | false =>
    refine h.quiet hstart hen (Nat.lt_of_le_of_ne h.le ?_)
    intro hlast
    rw [(h.done_iff hstart).mpr ⟨hen, hlast⟩] at hdone
    exact Bool.noConfusion hdone

end Edge

/-! ## A capture -/

/-- A capture of a run: `start` is high in cycle `f` for the last time, no two
later enable pulses are on consecutive cycles, and `done` is low before `T`. -/
structure Capturing (s : Regs w) (inp : ℕ → In) (f T : ℕ) : Prop where
  start_high : (inp f).start = true
  start_low : ∀ t, f < t → t < T → (inp t).start = false
  apart : ∀ t, f < t → t + 1 < T → (inp t).enable = true → (inp (t + 1)).enable = false
  not_done : ∀ t, f < t → t < T → (run s inp t).done = false

/-- The number of enable pulses in the cycles `f + 1 .. t - 1`. -/
def counted (inp : ℕ → In) (f t : ℕ) : ℕ :=
  Clocked.pulses (fun c => (inp c).enable) t - Clocked.pulses (fun c => (inp c).enable) (f + 1)

/-- The words written from the cycle `start` falls to before cycle `T`. -/
def writes (s : Regs w) (inp : ℕ → In) (f T : ℕ) : List ℕ :=
  Clocked.during (fun t => (run s inp t).writeEnableReg) (fun t => (run s inp t).addrCount.toNat)
    (f + 1) T

section Capture

variable {s : Regs w} {inp : ℕ → In} {f t T : ℕ}

@[simp] theorem counted_fall (inp : ℕ → In) (f : ℕ) : counted inp f (f + 1) = 0 := Nat.sub_self _

theorem counted_succ (h : f < t) :
    counted inp f (t + 1) = counted inp f t + (inp t).enable.toNat := by
  have hmono : Clocked.pulses (fun c => (inp c).enable) (f + 1) ≤
      Clocked.pulses (fun c => (inp c).enable) t := Clocked.pulses_mono _ h
  exact Nat.sub_add_comm hmono

theorem Capturing.counting (hw : 1 ≤ w) (h : Capturing s inp f T) (ht : f + 1 ≤ t) (hT : t < T) :
    Counting (counted inp f t) (run s inp t) ∧
      (run s inp t).writeEnableReg = (decide (f + 1 < t) && (inp (t - 1)).enable) := by
  induction t, ht using Nat.le_induction with
  | base =>
    rw [counted_fall, run_succ]
    refine ⟨Counting.start hw h.start_high, ?_⟩
    simp [step_start h.start_high]
  | succ t ht ih =>
    obtain ⟨hcounting, hwe⟩ := ih (Nat.lt_of_succ_lt hT)
    have hstart := h.start_low t ht (Nat.lt_of_succ_lt hT)
    rw [counted_succ ht, run_succ]
    refine ⟨hcounting.advance hstart ?_ (h.not_done (t + 1) (by omega) hT), ?_⟩
    · rw [hwe, Bool.and_eq_true, decide_eq_true_iff]
      rintro ⟨hlater, hen⟩
      obtain ⟨t, rfl⟩ := Nat.exists_eq_add_of_le' (Nat.one_le_of_lt hlater)
      exact h.apart t (by omega) (by omega) hen
    · rw [hcounting.writeEnableReg hstart, Nat.add_sub_cancel, decide_eq_true (by omega),
        Bool.true_and]

/-- The words written up to a cycle are the counts up to it, from `1` on. -/
theorem Capturing.writes_succ (hw : 1 ≤ w) (h : Capturing s inp f T) (ht : f + 1 ≤ t)
    (hT : t < T) : writes s inp f (t + 1) = List.range' 1 (counted inp f t) := by
  induction t, ht using Nat.le_induction with
  | base =>
    have hwe : (run s inp (f + 1)).writeEnableReg = false := by
      simp [(h.counting hw le_rfl hT).2]
    rw [writes, Clocked.during_succ_of_false le_rfl hwe, counted_fall]
    simp
  | succ t ht ih =>
    obtain ⟨hcounting, hwe⟩ := h.counting hw (Nat.le_succ_of_le ht) hT
    have hlater : f + 1 < t + 1 := by omega
    rw [decide_eq_true hlater, Bool.true_and] at hwe
    have hprev := ih (Nat.lt_of_succ_lt hT)
    have hcount := @counted_succ inp f t ht
    cases hen : (inp t).enable with
    | true =>
      rw [hen] at hcount
      rw [Nat.succ_sub_one, hen] at hwe
      rw [writes, Clocked.during_succ_of_true (Nat.le_succ_of_le ht) hwe, hcounting.addrCount,
        hcount, Bool.toNat_true, List.range'_1_concat, Nat.add_comm 1]
      exact congrArg (· ++ _) hprev
    | false =>
      rw [hen] at hcount
      rw [Nat.succ_sub_one, hen] at hwe
      rw [writes, Clocked.during_succ_of_false (Nat.le_succ_of_le ht) hwe, hcount]
      exact hprev

/-- The words written before any cycle are consecutive, from `1` on. -/
theorem Capturing.writes_eq (hw : 1 ≤ w) (h : Capturing s inp f T) :
    writes s inp f T = List.range' 1 (counted inp f (T - 1)) := by
  rcases Nat.lt_or_ge (f + 1) T with hlt | hge
  · obtain ⟨t, rfl⟩ := Nat.exists_eq_add_of_le' (Nat.one_le_of_lt hlt)
    exact h.writes_succ hw (Nat.le_of_lt_succ hlt) (Nat.lt_succ_self t)
  · have hcount : counted inp f (T - 1) = 0 := by
      exact Nat.sub_eq_zero_of_le (Clocked.pulses_mono _ (by omega))
    rw [writes, hcount, Clocked.during, List.Ico.eq_nil_of_le hge]
    rfl

/-- A capture that has ended has written the words `1 .. max_count`. -/
theorem Capturing.writes_done (hw : 1 ≤ w) (h : Capturing s inp f T) (hf : f < T)
    (hdone : (run s inp T).done = true) :
    writes s inp f T = List.range' 1 (maxCount w).toNat := by
  obtain ⟨t, rfl⟩ := Nat.exists_eq_add_of_le' (Nat.one_le_of_lt hf)
  rcases (Nat.le_of_lt_succ hf).eq_or_lt with rfl | ht
  · rw [run_succ, step_start h.start_high] at hdone
    exact Bool.noConfusion hdone
  · obtain ⟨hcounting, -⟩ := h.counting hw ht (Nat.lt_succ_self t)
    rw [run_succ] at hdone
    have hlast := (hcounting.done_iff (h.start_low t ht (Nat.lt_succ_self t))).mp hdone
    rw [h.writes_succ hw ht (Nat.lt_succ_self t), hlast.2]

/-- No capture writes word `0`, so none writes every word. -/
theorem Capturing.writes_incomplete (hw : 1 ≤ w) (h : Capturing s inp f T) (hf : f < T)
    (hdone : (run s inp T).done = true) :
    writes s inp f T = List.range' 1 (2 ^ min w 32 - 1) ∧ 0 ∉ writes s inp f T ∧
      writes s inp f T ≠ List.range (2 ^ w) := by
  have hwrites := h.writes_done hw hf hdone
  rw [toNat_maxCount] at hwrites
  have hzero : 0 ∉ writes s inp f T := by
    rw [hwrites, List.mem_range'_1]
    omega
  refine ⟨hwrites, hzero, ?_⟩
  intro hall
  rw [hall] at hzero
  exact hzero (List.mem_range.mpr (Nat.two_pow_pos w))

end Capture

/-- A start pulse and an enable pulse in every other cycle. -/
def everyOther (t : ℕ) : In := ⟨t % 2 == 0, t == 0⟩

theorem everyOther_capturing : Capturing (default : Regs 2) everyOther 0 8 := by
  have hdone : ∀ t < 8, (run (default : Regs 2) everyOther t).done = false := by decide
  refine ⟨rfl, ?_, ?_, fun t _ hT => hdone t hT⟩
  · intro t ht _
    simp [everyOther, Nat.ne_of_gt ht]
  · intro t _ _ hen
    simp only [everyOther, beq_iff_eq, beq_eq_false_iff_ne] at hen ⊢
    omega

theorem everyOther_writes_incomplete :
    writes (default : Regs 2) everyOther 0 8 = List.range' 1 (2 ^ min 2 32 - 1) ∧
      0 ∉ writes (default : Regs 2) everyOther 0 8 ∧
      writes (default : Regs 2) everyOther 0 8 ≠ List.range (2 ^ 2) :=
  everyOther_capturing.writes_incomplete (by decide) (by decide) (by decide)

/-- Two address bits: the three words after the first are written. -/
theorem everyOther_misses_first :
    Capturing (default : Regs 2) everyOther 0 8 ∧
      (run (default : Regs 2) everyOther 8).done = true ∧
      writes (default : Regs 2) everyOther 0 8 ≠ [0, 1, 2, 3] :=
  ⟨everyOther_capturing, by decide, by decide⟩

/-! ## After a capture -/

/-- The registers from the first `start` on: a counter that is done is stopped,
at the maximal count and with the write enable low. -/
structure Settled (s : Regs w) : Prop where
  started : s.started = !s.done
  write_low : s.done = true → s.writeEnableReg = false
  last : s.done = true → s.addrCount.toNat = (maxCount w).toNat

section Settled

variable {s : Regs w} {i : In} {inp : ℕ → In} {f t u : ℕ}

theorem Settled.start (h : i.start = true) : Settled (step s i) := by
  rw [step_start h]
  exact ⟨rfl, fun _ => rfl, fun hdone => Bool.noConfusion hdone⟩

/-- An edge that raises `done` has compared the count with `max_count`. -/
theorem last_of_rise (hdone : s.done = false) (hrise : (step s i).done = true) :
    s.addrCount.toNat = (maxCount w).toNat := by
  unfold step at hrise
  split at hrise
  · exact Bool.noConfusion hrise
  · split at hrise
    · exact absurd (hdone.symm.trans hrise) Bool.false_ne_true
    · split at hrise
      · rename_i hlast
        exact beq_iff_eq.mp hlast
      · exact absurd (hdone.symm.trans hrise) Bool.false_ne_true

/-- Without `start` a counter that is done keeps its registers. -/
theorem Settled.step_done (h : Settled s) (hdone : s.done = true) (hstart : i.start = false) :
    step s i = s := by
  have hstarted : s.started = false := by
    rw [h.started, hdone]
    rfl
  have hcount : s.doneCount = true := hdone
  have hwrite := h.write_low hdone
  have hlast := h.last hdone
  cases s
  simp_all [step]

theorem Settled.step (h : Settled s) (i : In) : Settled (step s i) := by
  cases hstart : i.start with
  | true => exact Settled.start hstart
  | false =>
    cases hdone : s.done with
    | true =>
      rw [h.step_done hdone hstart]
      exact h
    | false =>
      have hcount : s.doneCount = false := hdone
      have hstarted := h.started
      rw [hdone] at hstarted
      unfold AddrCounter.step
      rw [hstart, if_neg Bool.false_ne_true]
      split
      · exact ⟨by simp [Regs.done, hcount, hstarted], fun hd => absurd (hcount.symm.trans hd)
          Bool.false_ne_true, fun hd => absurd (hcount.symm.trans hd) Bool.false_ne_true⟩
      · split
        · rename_i hlast
          exact ⟨rfl, fun _ => rfl, fun _ => beq_iff_eq.mp hlast⟩
        · exact ⟨by simp [Regs.done, hcount, hstarted], fun _ => rfl,
            fun hd => absurd (hcount.symm.trans hd) Bool.false_ne_true⟩

theorem run_settled (hf : (inp f).start = true) (ht : f < t) : Settled (run s inp t) := by
  induction t, ht using Nat.le_induction with
  | base =>
    rw [run_succ]
    exact Settled.start hf
  | succ t _ ih =>
    rw [run_succ]
    exact ih.step (inp t)

/-- A counter that is done keeps its registers until the next `start`. -/
theorem Settled.run_done (h : Settled (run s inp t)) (hdone : (run s inp t).done = true)
    (htu : t ≤ u) (hlow : ∀ v, t ≤ v → v < u → (inp v).start = false) :
    run s inp u = run s inp t := by
  induction u, htu using Nat.le_induction with
  | base => rfl
  | succ u htu ih =>
    have hprev := ih fun v htv hv => hlow v htv (Nat.lt_succ_of_lt hv)
    rw [run_succ, hprev]
    exact h.step_done hdone (hlow u htu (Nat.lt_succ_self u))

/-- From the cycle after a `start` on, `done` keeps the write enable low until a
cycle after the next `start`, and rises only at the last count of `w` bits. -/
structure DoneFinal (s : Regs w) (inp : ℕ → In) (f : ℕ) : Prop where
  no_write : ∀ t, f < t → (run s inp t).done = true →
    ∀ u, t ≤ u → (∀ v, t ≤ v → v < u → (inp v).start = false) →
      (run s inp u).done = true ∧ (run s inp u).writeEn = 0#4
  rises_last : ∀ t, f < t → (run s inp t).done = false → (run s inp (t + 1)).done = true →
    (run s inp t).addrCount = BitVec.allOnes w

theorem run_no_write (hf : (inp f).start = true) (ht : f < t) (hdone : (run s inp t).done = true)
    (htu : t ≤ u) (hlow : ∀ v, t ≤ v → v < u → (inp v).start = false) :
    (run s inp u).done = true ∧ (run s inp u).writeEn = 0#4 := by
  have hsettled := run_settled (s := s) hf ht
  rw [hsettled.run_done hdone htu hlow]
  refine ⟨hdone, ?_⟩
  simp [Regs.writeEn, hsettled.write_low hdone]

end Settled

/-- A start pulse, and the enable input high in the `n` cycles after it. -/
def burst (n t : ℕ) : In := ⟨decide (t ≤ n), t == 0⟩

/-- Every cycle with the enable input high is counted. -/
theorem run_burst (s : Regs w) {n k : ℕ} (hk : k ≤ n) :
    (run s (burst n) (k + 1)).started = true ∧ (run s (burst n) (k + 1)).done = false ∧
      (run s (burst n) (k + 1)).addrCount = BitVec.ofNat w k := by
  induction k with
  | zero =>
    rw [run_succ, step_start rfl]
    exact ⟨rfl, rfl, rfl⟩
  | succ k ih =>
    obtain ⟨hstarted, hdone, hcount⟩ := ih (Nat.le_of_succ_le hk)
    have hpulse : burst n (k + 1) = ⟨true, false⟩ := by simp [burst, hk]
    rw [run_succ, hpulse]
    generalize run s (burst n) (k + 1) = r at hstarted hdone hcount
    refine ⟨by simp [step, hstarted], ?_, ?_⟩
    · have hcount : r.doneCount = false := hdone
      simp [step, hstarted, Regs.done, hcount]
    · simp [step, hstarted, hcount, BitVec.ofNat_add]

/-- The first low cycle after `max_count` pulses raises `done`. -/
theorem run_burst_done (s : Regs w) :
    (run s (burst (maxCount w).toNat) ((maxCount w).toNat + 1 + 1)).done = true := by
  obtain ⟨-, -, hcount⟩ := run_burst s (Nat.le_refl (maxCount w).toNat)
  have hpulse : burst (maxCount w).toNat ((maxCount w).toNat + 1) = ⟨false, false⟩ := by
    simp [burst]
  rw [run_succ, hpulse]
  have hlt := maxCount_lt w
  simp [step, Regs.done, hcount, Nat.mod_eq_of_lt hlt]

/-- `max_count` is the last count exactly up to the 32 bits it is computed in. -/
theorem maxCount_last_iff : (maxCount w).toNat = 2 ^ w - 1 ↔ w ≤ 32 := by
  rw [toNat_maxCount]
  constructor
  · intro heq
    have hpos := Nat.two_pow_pos w
    have hpos' := Nat.two_pow_pos (min w 32)
    have hpow : 2 ^ min w 32 = 2 ^ w := by omega
    exact min_eq_left_iff.mp (Nat.pow_right_injective (Nat.le_refl 2) hpow)
  · intro hw
    rw [Nat.min_eq_left hw]

theorem doneFinal_iff (w : ℕ) :
    (∀ (s : Regs w) (inp : ℕ → In) (f : ℕ), (inp f).start = true → DoneFinal s inp f) ↔
      w ≤ 32 := by
  constructor
  · intro h
    have hburst := h default (burst (maxCount w).toNat) 0 rfl
    obtain ⟨-, hdone, hcount⟩ := run_burst (default : Regs w) (Nat.le_refl (maxCount w).toNat)
    have hlast := hburst.rises_last _ (Nat.succ_pos _) hdone (run_burst_done default)
    rw [← maxCount_last_iff, ← BitVec.toNat_allOnes, ← hlast, hcount, BitVec.toNat_ofNat,
      Nat.mod_eq_of_lt (maxCount_lt w)]
  · intro hw32 s inp f hf
    refine ⟨fun t ht hdone u htu hlow => run_no_write hf ht hdone htu hlow, ?_⟩
    intro t _ hdone hrise
    rw [run_succ] at hrise
    refine BitVec.eq_of_toNat_eq ?_
    rw [last_of_rise hdone hrise, maxCount_last_iff.mpr hw32, BitVec.toNat_allOnes]

/-- With 33 address bits `done` rises half way. -/
theorem wide_not_doneFinal :
    (burst (2 ^ 32 - 1) 0).start = true ∧ ¬ DoneFinal (default : Regs 33) (burst (2 ^ 32 - 1)) 0 := by
  refine ⟨rfl, ?_⟩
  intro h
  have hmax : (maxCount 33).toNat = 2 ^ 32 - 1 := toNat_maxCount 33
  obtain ⟨-, hdone, hcount⟩ := run_burst (default : Regs 33) (Nat.le_refl (2 ^ 32 - 1))
  have hrise := run_burst_done (default : Regs 33)
  rw [hmax] at hrise
  have hlast := h.rises_last _ (Nat.succ_pos _) hdone hrise
  rw [hcount] at hlast
  exact absurd hlast (by decide)

end AddrCounter
