-- SUMMARY: The register-level model of leds.v, and at which index of the colour memory the selected LED is lit.
import FpgaAcoustic.Rtl.Ws2812

/-!
# LED controller

A slow counter goes through the LEDs and writes a colour for each. The colour is
a register, so what is written at an index is the colour that was chosen with
the index before.
-/

namespace Leds

/-- The instance of `ws2812`, with its default clock. -/
def ws2812Params : Ws2812.Params := ⟨60, 10⟩

def numLeds : ℕ := 60

def highlight : BitVec 24 := 0x000f00#24

def background : BitVec 24 := 0x00000f#24

/-- The inputs of a cycle. -/
structure In where
  reset : Bool
  ledSel : BitVec 8

/-- The registers, with those of the instance. -/
structure Regs where
  count : BitVec 11
  ledNum : BitVec 8
  ledRgbData : BitVec 24
  ws2812 : ws2812Params.Regs

namespace Regs

def ledWrite (s : Regs) : Bool := s.count == BitVec.allOnes 11

def nextLedNum (s : Regs) (i : In) : BitVec 8 :=
  if s.ledWrite then
    if s.ledNum == i.ledSel then s.ledNum + 1
    else if s.ledNum.toNat == numLeds then 0
    else s.ledNum + 1
  else s.ledNum

def nextLedRgbData (s : Regs) (i : In) : BitVec 24 :=
  if s.ledWrite then
    if s.ledNum == i.ledSel then highlight
    else if s.ledNum.toNat == numLeds then s.ledRgbData
    else background
  else s.ledRgbData

end Regs

/-- One rising edge of `clk`. -/
def step (s : Regs) (i : In) : Regs where
  count := s.count + 1
  ledNum := s.nextLedNum i
  ledRgbData := s.nextLedRgbData i
  ws2812 := Ws2812.step s.ws2812
    { rgbData := s.ledRgbData, ledNum := s.ledNum, write := s.ledWrite, reset := i.reset }

/-- The state in each cycle of a run. -/
def run (s : Regs) (inp : ℕ → In) : ℕ → Regs := Clocked.run step s inp

theorem run_succ (s : Regs) (inp : ℕ → In) (t : ℕ) :
    run s inp (t + 1) = step (run s inp t) (inp t) := rfl

/-! ## Scans -/

/-- What changes only when a colour is written. -/
structure Scan where
  ledNum : BitVec 8
  rgbData : BitVec 24
  mem : ℕ → BitVec 24

def Regs.scan (s : Regs) : Scan := ⟨s.ledNum, s.ledRgbData, s.ws2812.ledReg⟩

/-- One write, with the choice of the next index and of its colour. -/
def Scan.tick (sel : BitVec 8) (σ : Scan) : Scan where
  ledNum :=
    if σ.ledNum == sel then σ.ledNum + 1
    else if σ.ledNum.toNat == numLeds then 0
    else σ.ledNum + 1
  rgbData :=
    if σ.ledNum == sel then highlight
    else if σ.ledNum.toNat == numLeds then σ.rgbData
    else background
  mem := if σ.ledNum.toNat < numLeds then Function.update σ.mem σ.ledNum.toNat σ.rgbData else σ.mem

theorem scan_step (s : Regs) (i : In) :
    (step s i).scan = if s.ledWrite then s.scan.tick i.ledSel else s.scan := by
  have hmem : (step s i).ws2812.ledReg =
      if s.ledWrite && decide (s.ledNum.toNat < ws2812Params.numLeds) then
        Function.update s.ws2812.ledReg s.ledNum.toNat s.ledRgbData
      else s.ws2812.ledReg := rfl
  rw [Regs.scan, hmem, step, Regs.nextLedNum, Regs.nextLedRgbData]
  cases s.ledWrite with
  | false => rfl
  | true =>
    simp only [Bool.true_and, decide_eq_true_eq, if_true]
    rfl

/-- The cycles from one write to the next. -/
def writeCycles : ℕ := 2048

/-- The writes of a scan; the last one has an index that no LED has. -/
def scanWrites : ℕ := numLeds + 1

def scanCycles : ℕ := scanWrites * writeCycles

section Runs

variable {sel : BitVec 8} {inp : ℕ → In} {s : Regs} {u : ℕ}

theorem count_add (s : Regs) (inp : ℕ → In) (u k : ℕ) :
    (run s inp (u + k)).count = (run s inp u).count + BitVec.ofNat 11 k := by
  induction k with
  | zero => exact (BitVec.add_zero _).symm
  | succ k ih =>
    rw [← Nat.add_assoc, run_succ]
    show (run s inp (u + k)).count + 1 = _
    rw [ih, BitVec.ofNat_add, BitVec.add_assoc]
    rfl

theorem count_run (h : (run s inp u).count = 0) (k : ℕ) :
    (run s inp (u + k)).count = BitVec.ofNat 11 k := by
  rw [count_add, h]
  exact BitVec.zero_add _

theorem ledWrite_run (h : (run s inp u).count = 0) (k : ℕ) :
    (run s inp (u + k)).ledWrite = decide (writeCycles ∣ k + 1) := by
  rw [Regs.ledWrite, count_run h, Bool.eq_iff_iff, beq_iff_eq, decide_eq_true_iff,
    ← BitVec.toNat_inj, BitVec.toNat_ofNat, BitVec.toNat_allOnes, writeCycles]
  omega

theorem exists_count_zero (s : Regs) (inp : ℕ → In) : ∃ u, (run s inp u).count = 0 := by
  refine ⟨0 + (2048 - s.count.toNat), ?_⟩
  rw [count_add, ← BitVec.toNat_inj, BitVec.toNat_add, BitVec.toNat_ofNat]
  have hlt : (run s inp 0).count.toNat < 2048 := s.count.isLt
  show ((run s inp 0).count.toNat + (2048 - (run s inp 0).count.toNat) % 2048) % 2048 = 0
  omega

theorem scan_run (hsel : ∀ t, (inp t).ledSel = sel) (h : (run s inp u).count = 0) (k : ℕ) :
    (run s inp (u + k)).scan = (Scan.tick sel)^[k / writeCycles] (run s inp u).scan := by
  apply @Clocked.iterate_of_ticks _ _ (fun t => (run s inp t).scan)
    (fun t => (run s inp t).ledWrite)
  · intro t _
    rw [run_succ, scan_step, hsel]
  · exact ledWrite_run h

end Runs

/-! ## What a scan writes -/

/-- The colour that is chosen with an index. -/
def color (sel : BitVec 8) (index : ℕ) : BitVec 24 :=
  if index = sel.toNat then highlight else background

/-- The LED whose index comes before. -/
def before (index : ℕ) : ℕ := (index + 59) % 60

/-- The state after `n` writes from index `0` on. The colour at index `0` is of
this scan only after the first one. -/
structure Scanned (sel : BitVec 8) (n : ℕ) (σ : Scan) : Prop where
  ledNum : σ.ledNum.toNat = n % scanWrites
  rgbData : 1 ≤ n → σ.rgbData = color sel (before (n % scanWrites))
  mem : ∀ j, j < numLeds → j < n → (j = 0 → scanWrites < n) → σ.mem j = color sel (before j)

section Scans

variable {sel : BitVec 8} {σ : Scan} {n : ℕ}

theorem toNat_succ {x : BitVec 8} (h : x.toNat < 255) : (x + 1).toNat = x.toNat + 1 := by
  have hone : (1 : BitVec 8).toNat = 1 := rfl
  rw [BitVec.toNat_add, hone]
  exact Nat.mod_eq_of_lt (by omega)

theorem beq_sel (σ : Scan) (sel : BitVec 8) :
    (σ.ledNum == sel) = decide (σ.ledNum.toNat = sel.toNat) := by
  rw [Bool.eq_iff_iff, beq_iff_eq, decide_eq_true_iff, BitVec.toNat_inj]

/-- A write for an LED: the next index has one more, and the colour of this one. -/
theorem tick_of_lt (h : σ.ledNum.toNat < numLeds) :
    (σ.tick sel).ledNum.toNat = σ.ledNum.toNat + 1 ∧
      (σ.tick sel).rgbData = color sel σ.ledNum.toNat ∧
      (σ.tick sel).mem = Function.update σ.mem σ.ledNum.toNat σ.rgbData := by
  unfold numLeds at h
  have hsucc : (σ.ledNum + 1).toNat = σ.ledNum.toNat + 1 := toNat_succ (by omega)
  have hend : (σ.ledNum.toNat == numLeds) = false := beq_false_of_ne (by unfold numLeds; omega)
  refine ⟨?_, ?_, if_pos h⟩
  · simp only [Scan.tick, hend, Bool.false_eq_true, if_false, ite_self]
    exact hsucc
  · simp only [Scan.tick, hend, Bool.false_eq_true, if_false, beq_sel, decide_eq_true_eq, color]

/-- The end of a scan: the colour stays. -/
theorem tick_of_end (hsel : sel.toNat < numLeds) (h : σ.ledNum.toNat = numLeds) :
    (σ.tick sel).ledNum.toNat = 0 ∧ (σ.tick sel).rgbData = σ.rgbData ∧
      (σ.tick sel).mem = σ.mem := by
  have hne : (σ.ledNum == sel) = false := by
    rw [beq_sel, h]
    exact decide_eq_false hsel.ne'
  refine ⟨?_, ?_, if_neg (by omega)⟩
  · simp [Scan.tick, hne, h]
  · simp [Scan.tick, hne, h]

theorem before_succ (index : ℕ) (h : index < numLeds) : before (index + 1) = index := by
  unfold before numLeds at *
  omega

theorem before_end : before numLeds = before 0 := rfl

theorem mod_scan_lt {r : ℕ} (h : n % scanWrites = r) (hr : r < numLeds) :
    (n + 1) % scanWrites = r + 1 := by
  unfold scanWrites numLeds at *
  omega

theorem mod_scan_end (h : n % scanWrites = numLeds) : (n + 1) % scanWrites = 0 := by
  unfold scanWrites numLeds at *
  omega

theorem scan_lt (h : scanWrites < n + 1) (hne : n % scanWrites ≠ 0) : scanWrites < n := by
  refine Nat.lt_of_le_of_ne (Nat.lt_succ_iff.mp h) fun hn => hne ?_
  rw [← hn, Nat.mod_self]

theorem Scanned.tick (hsel : sel.toNat < numLeds) (h : Scanned sel n σ) :
    Scanned sel (n + 1) (σ.tick sel) := by
  obtain ⟨hnum, hrgb, hmem⟩ := h
  have hle : n % scanWrites ≤ numLeds := Nat.lt_succ_iff.mp (Nat.mod_lt n (Nat.succ_pos numLeds))
  have hmod : n % scanWrites ≤ n := Nat.mod_le n scanWrites
  rcases Nat.lt_or_ge σ.ledNum.toNat numLeds with hlt | hge
  · obtain ⟨hnum', hrgb', hmem'⟩ := @tick_of_lt sel σ hlt
    have hsucc := mod_scan_lt hnum.symm hlt
    refine ⟨hnum'.trans hsucc.symm, fun _ => ?_, fun j hj hjn hzero => ?_⟩
    · rw [hrgb', hsucc, before_succ _ hlt]
    · rw [hmem']
      rcases eq_or_ne j σ.ledNum.toNat with rfl | hne
      · have hpos : 1 ≤ n := by
          rcases Nat.eq_zero_or_pos σ.ledNum.toNat with hz | hz
          · have := hzero hz
            unfold scanWrites at this
            omega
          · omega
        rw [Function.update_self, hrgb hpos, hnum]
      · rw [Function.update_of_ne hne]
        have hjn' : j < n := by
          rcases Nat.lt_or_ge j n with h | h
          · exact h
          · have hn : n % scanWrites = n := Nat.mod_eq_of_lt (by unfold scanWrites; omega)
            omega
        exact hmem j hj hjn' fun hz => scan_lt (hzero hz) (by omega)
  · have hend : σ.ledNum.toNat = numLeds := by omega
    obtain ⟨hnum', hrgb', hmem'⟩ := tick_of_end hsel hend
    have hlast : n % scanWrites = numLeds := hnum.symm.trans hend
    have hwrap := mod_scan_end hlast
    refine ⟨hnum'.trans hwrap.symm, fun _ => ?_, fun j hj hjn hzero => ?_⟩
    · have hpos : 1 ≤ n := by
        unfold numLeds at hlast
        omega
      rw [hrgb', hrgb hpos, hlast, before_end, hwrap]
    · rw [hmem']
      have hne : n % scanWrites ≠ 0 := by
        rw [hlast]
        exact Nat.succ_ne_zero 59
      exact hmem j hj (by omega) fun hz => scan_lt (hzero hz) hne

theorem scanned_iterate (hsel : sel.toNat < numLeds) (hstart : σ.ledNum = 0) (n : ℕ) :
    Scanned sel n ((Scan.tick sel)^[n] σ) := by
  induction n with
  | zero =>
    exact ⟨congrArg BitVec.toNat hstart, fun h => absurd h (by decide),
      fun j _ h => absurd h (Nat.not_lt_zero j)⟩
  | succ n ih =>
    rw [Function.iterate_succ_apply']
    exact ih.tick hsel

/-- Every index is followed by index `0` at some time, also one that no LED has. -/
theorem exists_iterate_start (hsel : sel.toNat < numLeds) (σ : Scan) :
    ∃ n, ((Scan.tick sel)^[n] σ).ledNum = 0 := by
  have hbound := σ.ledNum.isLt
  induction hk : 256 - σ.ledNum.toNat using Nat.strong_induction_on generalizing σ with
  | _ k ih =>
    rcases eq_or_ne σ.ledNum.toNat numLeds with hend | hne
    · refine ⟨1, BitVec.toNat_inj.mp ?_⟩
      exact (tick_of_end hsel hend).1
    · have hnext : (σ.tick sel).ledNum = σ.ledNum + 1 := by
        simp [Scan.tick, hne]
      rcases Nat.lt_or_ge σ.ledNum.toNat 255 with hlt | hge
      · have hsucc : (σ.tick sel).ledNum.toNat = σ.ledNum.toNat + 1 := by
          rw [hnext]
          exact toNat_succ hlt
        obtain ⟨n, hn⟩ := ih _ (by omega) (σ.tick sel) (σ.tick sel).ledNum.isLt rfl
        exact ⟨n + 1, hn⟩
      · have hmax : σ.ledNum = 255 := by
          apply BitVec.eq_of_toNat_eq
          rw [← Nat.le_antisymm hge (by omega)]
          rfl
        refine ⟨1, ?_⟩
        show (σ.tick sel).ledNum = 0
        rw [hnext, hmax]
        rfl

end Scans

/-! ## The memory after two scans -/

/-- A cycle in which a scan of the LEDs starts. -/
def ScanStart (s : Regs) : Prop := s.ledNum = 0 ∧ s.count = 0

instance (s : Regs) : Decidable (ScanStart s) := inferInstanceAs (Decidable (_ ∧ _))

/-- Two full scans have gone by in cycle `t`. -/
def ScannedTwice (s : Regs) (inp : ℕ → In) (t : ℕ) : Prop :=
  ∃ u, ScanStart (run s inp u) ∧ u + 2 * scanCycles ≤ t

/-- Only the selected LED is lit. -/
def Lit (sel : BitVec 8) (mem : ℕ → BitVec 24) : Prop :=
  ∀ j, j < numLeds → mem j = if j = sel.toNat then highlight else background

section Memory

variable {sel : BitVec 8} {inp : ℕ → In} {s : Regs}

theorem color_before_not_lit (hsel : sel.toNat < numLeds) {mem : ℕ → BitVec 24}
    (h : ∀ j, j < numLeds → mem j = color sel (before j)) : ¬ Lit sel mem := by
  intro hlit
  have hne : before sel.toNat ≠ sel.toNat := by
    unfold before numLeds at *
    omega
  have heq : background = highlight := by
    have hmem := h _ hsel
    rw [hlit _ hsel, if_pos rfl, color, if_neg hne] at hmem
    exact hmem.symm
  exact absurd heq (by decide)

/-- The counter comes to zero, and from then on the scans go on until one starts. -/
theorem exists_scanStart (hsel : sel.toNat < numLeds) (hinp : ∀ t, (inp t).ledSel = sel)
    (s : Regs) : ∃ u, ScanStart (run s inp u) := by
  obtain ⟨u, hu⟩ := exists_count_zero s inp
  obtain ⟨n, hn⟩ := exists_iterate_start hsel (run s inp u).scan
  have hdiv : writeCycles * n / writeCycles = n := Nat.mul_div_cancel_left n (by decide)
  refine ⟨u + writeCycles * n, ?_, ?_⟩
  · have hscan := scan_run hinp hu (writeCycles * n)
    rw [hdiv] at hscan
    exact (congrArg Scan.ledNum hscan).trans hn
  · rw [count_run hu, BitVec.ofNat_mul]
    exact BitVec.zero_mul

theorem mem_of_scannedTwice (hsel : sel.toNat < numLeds) (hinp : ∀ t, (inp t).ledSel = sel)
    {t : ℕ} (h : ScannedTwice s inp t) (j : ℕ) (hj : j < numLeds) :
    (run s inp t).ws2812.ledReg j = color sel (before j) := by
  obtain ⟨u, ⟨hnum, hcount⟩, hle⟩ := h
  obtain ⟨k, rfl⟩ := Nat.exists_eq_add_of_le hle
  rw [Nat.add_assoc]
  have hscan := scan_run hinp hcount (2 * scanCycles + k)
  have hdone : 2 * scanWrites ≤ (2 * scanCycles + k) / writeCycles := by
    rw [Nat.le_div_iff_mul_le (by decide), Nat.mul_assoc]
    exact Nat.le_add_right _ k
  have hstart : (run s inp u).scan.ledNum = 0 := hnum
  have hmem := (scanned_iterate hsel hstart ((2 * scanCycles + k) / writeCycles)).mem j hj
  refine (congrFun (congrArg Scan.mem hscan) j).trans (hmem ?_ fun _ => ?_)
  · unfold scanWrites at hdone
    omega
  · unfold scanWrites numLeds at *
    omega

end Memory

/-- The LED after the selected one is lit instead, whatever the registers held. -/
theorem scanned_not_lit (s : Regs) (inp : ℕ → In) (sel : BitVec 8)
    (hsel : sel.toNat < numLeds) (hinp : ∀ t, (inp t).ledSel = sel) :
    (∃ T, ∀ t, T ≤ t → ScannedTwice s inp t) ∧
      ∀ t, ScannedTwice s inp t →
        (∀ j, j < numLeds → (run s inp t).ws2812.ledReg j = color sel (before j)) ∧
          ¬ Lit sel (run s inp t).ws2812.ledReg := by
  refine ⟨?_, fun t ht => ?_⟩
  · obtain ⟨u, hu⟩ := exists_scanStart hsel hinp s
    exact ⟨u + 2 * scanCycles, fun t ht => ⟨u, hu, ht⟩⟩
  · have hmem := mem_of_scannedTwice hsel hinp ht
    exact ⟨hmem, color_before_not_lit hsel hmem⟩

/-- The registers at power-up; those of the instance have no initial value. -/
def powerUp (ws2812 : ws2812Params.Regs) : Regs := ⟨0, 0, 0, ws2812⟩

/-- At power-up, with zeros in the instance. -/
def zeros : Regs := powerUp ⟨fun _ => 0, 0, 0, 0, 0, 0, false⟩

/-- LED 5 is selected, without a reset. -/
def selectFive (_ : ℕ) : In := ⟨false, 5⟩

theorem selectFive_scanned_not_lit :
    (∃ T, ∀ t, T ≤ t → ScannedTwice zeros selectFive t) ∧
      ∀ t, ScannedTwice zeros selectFive t →
        (∀ j, j < numLeds → (run zeros selectFive t).ws2812.ledReg j = color 5 (before j)) ∧
          ¬ Lit 5 (run zeros selectFive t).ws2812.ledReg :=
  scanned_not_lit zeros selectFive 5 (by decide) fun _ => rfl

theorem selectFive_not_lit :
    ScannedTwice zeros selectFive (2 * scanCycles) ∧
      (run zeros selectFive (2 * scanCycles)).ws2812.ledReg 5 = background ∧
      (run zeros selectFive (2 * scanCycles)).ws2812.ledReg 6 = highlight ∧
      ¬ Lit 5 (run zeros selectFive (2 * scanCycles)).ws2812.ledReg := by
  have hscanned : ScannedTwice zeros selectFive (2 * scanCycles) :=
    ⟨0, ⟨rfl, rfl⟩, Nat.le_of_eq (Nat.zero_add _)⟩
  have hmem := fun j hj =>
    @mem_of_scannedTwice 5 selectFive zeros (by decide) (fun _ => rfl) _ hscanned j hj
  exact ⟨hscanned, hmem 5 (by decide), hmem 6 (by decide), color_before_not_lit (by decide) hmem⟩

end Leds
