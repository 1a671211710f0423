-- SUMMARY: The register-level model of axis_tlast.v with its gate, and why each accepted beat is transferred and every n-th one ends a packet.
import Mathlib.Data.BitVec
import FpgaAcoustic.Signal.Clocked

/-!
# TLAST generator

A gate connects the two streams while it is enabled. A counter of the beats is
compared with the registered length of a packet, less one, in the width of the
widest operand; a literal has 32 bits.
-/

namespace AxisTlast

/-! ## The gate -/

/-- The value of `IMPLEMENTATION`. -/
inductive Implementation
  | mux
  | and
  deriving DecidableEq, Repr

def annuller {w : ℕ} (implementation : Implementation) (annul : Bool) (dataIn : BitVec w) :
    BitVec w :=
  match implementation with
  | .mux => if annul = false then dataIn else 0#w
  | .and => dataIn &&& if annul = false then BitVec.allOnes w else 0#w

/-- The outputs of the gate. -/
structure Gate (w : ℕ) where
  inputReady : Bool
  outputValid : Bool
  outputData : BitVec w

/-- `pipeline_gate`; `gateData` is whether `GATE_DATA` is not zero. -/
def pipelineGate {w : ℕ} (implementation : Implementation) (gateData enable inputValid : Bool)
    (inputData : BitVec w) (outputReady : Bool) : Gate w :=
  if gateData then
    let dataOut := annuller implementation (enable == false)
      (inputData ++ BitVec.ofBool outputReady ++ BitVec.ofBool inputValid)
    ⟨dataOut.getLsbD 1, dataOut.getLsbD 0, dataOut.extractLsb' 2 w⟩
  else
    let dataOut := annuller implementation (enable == false)
      (BitVec.ofBool outputReady ++ BitVec.ofBool inputValid)
    ⟨dataOut.getLsbD 1, dataOut.getLsbD 0, inputData⟩

theorem annuller_eq {w : ℕ} (implementation : Implementation) (enable : Bool) (dataIn : BitVec w) :
    annuller implementation (enable == false) dataIn = if enable then dataIn else 0#w := by
  cases implementation <;> cases enable <;> simp [annuller]

/-- A gate that gates the data lets all three signals through, or none. -/
theorem pipelineGate_eq {w : ℕ} (implementation : Implementation) (enable inputValid : Bool)
    (inputData : BitVec w) (outputReady : Bool) :
    pipelineGate implementation true enable inputValid inputData outputReady =
      if enable then ⟨outputReady, inputValid, inputData⟩ else ⟨false, false, 0#w⟩ := by
  rw [pipelineGate, if_pos rfl, annuller_eq]
  cases enable with
  | false => simp
  | true =>
    have hbit : ∀ k, (inputData ++ BitVec.ofBool outputReady ++ BitVec.ofBool inputValid).getLsbD k =
        if k = 0 then inputValid else if k = 1 then outputReady else inputData.getLsbD (k - 2) := by
      intro k
      rw [BitVec.getLsbD_append, BitVec.getLsbD_append, BitVec.getLsbD_ofBool,
        BitVec.getLsbD_ofBool]
      rcases k with _ | _ | k <;> simp
    have hdata : (inputData ++ BitVec.ofBool outputReady ++
        BitVec.ofBool inputValid).extractLsb' 2 w = inputData := by
      ext i hi
      rw [BitVec.getElem_extractLsb', hbit, if_neg (by omega), if_neg (by omega),
        Nat.add_sub_cancel_left, BitVec.getLsbD_eq_getElem]
    rw [if_pos rfl, if_pos rfl, Gate.mk.injEq]
    exact ⟨hbit 1, hbit 0, hdata⟩

/-! ## The module -/

/-- The inputs of a cycle. -/
structure In (td cw : ℕ) where
  resetn : Bool
  cfgData : BitVec cw
  enable : Bool
  sTvalid : Bool
  sTdata : BitVec td
  mTready : Bool

/-- The registers. -/
structure Regs (cw : ℕ) where
  cnt : BitVec (cw + 1)
  intDataReg : BitVec cw
  deriving DecidableEq, Repr

section Module

variable {td cw : ℕ}

namespace In

variable (i : In td cw)

def gate : Gate td := pipelineGate .mux true i.enable i.sTvalid i.sTdata i.mTready
def sTready : Bool := i.gate.inputReady
def mTvalid : Bool := i.gate.outputValid
def mTdata : BitVec td := i.gate.outputData

/-- `new_sample`: a beat is accepted on the slave side. -/
def newSample : Bool := i.sTvalid && i.sTready

/-- A beat is transferred on the master side. -/
def transferred : Bool := i.mTvalid && i.mTready

end In

/-- The width of `cnt == int_data_reg - 1`. -/
def width (cw : ℕ) : ℕ := max (cw + 1) 32

def mTlast (s : Regs cw) : Bool :=
  s.cnt.setWidth (width cw) == s.intDataReg.setWidth (width cw) - 1#(width cw)

/-- One rising edge of `aclk`. -/
def step (s : Regs cw) (i : In td cw) : Regs cw where
  intDataReg := if !i.resetn then 0#(cw) else i.cfgData
  cnt :=
    if !i.resetn || (mTlast s && i.newSample) then 0#(cw + 1)
    else if i.newSample then s.cnt + 1#(cw + 1)
    else s.cnt

/-- The state in each cycle of a run. -/
def run (s : Regs cw) (inp : ℕ → In td cw) : ℕ → Regs cw := Clocked.run step s inp

theorem run_succ (s : Regs cw) (inp : ℕ → In td cw) (t : ℕ) :
    run s inp (t + 1) = step (run s inp t) (inp t) := rfl

/-! ## Beats -/

namespace In

variable (i : In td cw)

theorem gate_eq : i.gate = if i.enable then ⟨i.mTready, i.sTvalid, i.sTdata⟩ else ⟨false, false, 0#(td)⟩ :=
  pipelineGate_eq ..

theorem newSample_eq : i.newSample = (i.enable && i.sTvalid && i.mTready) := by
  rw [newSample, sTready, gate_eq]
  cases i.enable <;> simp

theorem transferred_eq : i.transferred = i.newSample := by
  rw [newSample_eq, transferred, mTvalid, gate_eq]
  cases i.enable <;> simp

theorem mTdata_of_enable (h : i.enable = true) : i.mTdata = i.sTdata := by
  rw [mTdata, gate_eq, if_pos h]

/-- The gate neither loses nor changes a beat, and makes none. -/
theorem newSample_iff :
    i.newSample = true ↔ i.transferred = true ∧ i.mTdata = i.sTdata := by
  rw [transferred_eq, newSample_eq, iff_self_and]
  intro h
  exact i.mTdata_of_enable (Bool.and_eq_true_iff.mp (Bool.and_eq_true_iff.mp h).1).1

end In

/-! ## One edge -/

section Edge

variable {s : Regs cw} {i : In td cw}

/-- The comparison is one modulo its width. -/
theorem mTlast_iff_mod : mTlast s = true ↔
    (s.cnt.toNat + 1) % 2 ^ width cw = s.intDataReg.toNat := by
  have hlen : s.intDataReg.toNat < 2 ^ width cw :=
    s.intDataReg.isLt.trans_le
      (Nat.pow_le_pow_right (by decide) ((Nat.le_succ cw).trans (Nat.le_max_left ..)))
  rw [mTlast, beq_iff_eq, BitVec.eq_sub_iff_add_eq, ← BitVec.toNat_inj, BitVec.toNat_add,
    BitVec.toNat_setWidth, BitVec.toNat_setWidth, BitVec.toNat_ofNat, Nat.mod_add_mod,
    Nat.add_mod_mod, Nat.mod_eq_of_lt hlen]

theorem mTlast_iff (hpos : 1 ≤ s.intDataReg.toNat) :
    mTlast s = true ↔ s.cnt.toNat + 1 = s.intDataReg.toNat := by
  have hcnt : s.cnt.toNat + 1 ≤ 2 ^ width cw :=
    s.cnt.isLt.trans_le (Nat.pow_le_pow_right (by decide) (Nat.le_max_left ..))
  rw [mTlast_iff_mod]
  rcases Nat.lt_or_eq_of_le hcnt with hlt | heq
  · rw [Nat.mod_eq_of_lt hlt]
  · -- the counter is past every length
    have hlen := s.intDataReg.isLt
    have hpow : 2 ^ cw < 2 ^ width cw :=
      Nat.pow_lt_pow_right (by decide) (Nat.lt_of_succ_le (Nat.le_max_left ..))
    rw [heq, Nat.mod_self]
    omega

theorem step_of_reset (h : i.resetn = false) : step s i = ⟨0#(cw + 1), 0#(cw)⟩ := by
  simp [step, h]

theorem intDataReg_step (h : i.resetn = true) : (step s i).intDataReg = i.cfgData := by
  simp [step, h]

theorem cnt_step_of_quiet (h : i.resetn = true) (hquiet : i.newSample = false) :
    (step s i).cnt = s.cnt := by
  simp [step, h, hquiet]

theorem cnt_step_of_last (hnew : i.newSample = true) (hlast : mTlast s = true) :
    (step s i).cnt = 0#(cw + 1) := by
  simp [step, hnew, hlast]

theorem cnt_step_of_beat (h : i.resetn = true) (hnew : i.newSample = true)
    (hlast : mTlast s = false) : (step s i).cnt = s.cnt + 1#(cw + 1) := by
  simp [step, h, hnew, hlast]

/-- The counter has `k` beats of a packet of `n`. -/
structure Counts (n : BitVec cw) (k : ℕ) (s : Regs cw) : Prop where
  cnt : s.cnt.toNat = k % n.toNat
  length : s.intDataReg = n

theorem succ_mod {n : ℕ} (hn : 1 ≤ n) (k : ℕ) :
    (k + 1) % n = if k % n + 1 = n then 0 else k % n + 1 := by
  have hlt := Nat.mod_lt k hn
  rw [← Nat.mod_add_mod]
  split_ifs with h
  · rw [h, Nat.mod_self]
  · exact Nat.mod_eq_of_lt (by omega)

theorem Counts.mTlast_iff {n : BitVec cw} {k : ℕ} (h : Counts n k s) (hn : 1 ≤ n.toNat) :
    mTlast s = true ↔ n.toNat ∣ k + 1 := by
  rw [AxisTlast.mTlast_iff (h.length ▸ hn), h.cnt, h.length, Nat.dvd_iff_mod_eq_zero, succ_mod hn]
  split_ifs with hlast
  · exact iff_of_true hlast rfl
  · exact iff_of_false hlast id

theorem Counts.step {n : BitVec cw} {k : ℕ} (h : Counts n k s) (hn : 1 ≤ n.toNat)
    (hreset : i.resetn = true) (hcfg : i.cfgData = n) :
    Counts n (k + i.newSample.toNat) (step s i) := by
  refine ⟨?_, (intDataReg_step hreset).trans hcfg⟩
  have hlast := AxisTlast.mTlast_iff (h.length ▸ hn)
  rw [h.cnt, h.length] at hlast
  cases hnew : i.newSample with
  | false => rw [cnt_step_of_quiet hreset hnew, h.cnt, Bool.toNat_false, Nat.add_zero]
  | true =>
    rw [Bool.toNat_true, succ_mod hn]
    split_ifs with hfull
    · rw [cnt_step_of_last hnew (hlast.mpr hfull)]
      rfl
    · have hbeat : mTlast s = false := Bool.not_eq_true _ ▸ mt hlast.mp hfull
      have hlt := Nat.mod_lt k hn
      have hbound : k % n.toNat + 1 < 2 ^ (cw + 1) := by
        have hsize := n.isLt
        rw [pow_succ]
        omega
      rw [cnt_step_of_beat hreset hnew hbeat, BitVec.toNat_add, h.cnt, BitVec.toNat_ofNat,
        Nat.add_mod_mod]
      exact Nat.mod_eq_of_lt hbound

end Edge

/-! ## Runs -/

section Runs

variable {inp : ℕ → In td cw} {n : BitVec cw}

/-- A run that begins with a reset, with a constant length on `cfg_data` from then on. -/
structure Constant (inp : ℕ → In td cw) (n : BitVec cw) : Prop where
  reset : Clocked.ResetFirst fun t => !(inp t).resetn
  cfgData : ∀ t, 1 ≤ t → (inp t).cfgData = n

/-- The beats since the reset. -/
def beats (inp : ℕ → In td cw) : ℕ → Bool := fun t => (inp t).resetn && (inp t).transferred

theorem Constant.resetn (h : Constant inp n) {t : ℕ} (ht : 1 ≤ t) : (inp t).resetn = true :=
  h.reset.high ht

/-- From the second cycle after the reset on, the counter has the beats. -/
theorem Constant.counts (h : Constant inp n) (hn : 1 ≤ n.toNat)
    (hquiet : (inp 1).newSample = false) (s : Regs cw) :
    ∀ t, 2 ≤ t → Counts n (Clocked.pulses (beats inp) t) (run s inp t) := by
  have hzero : (inp 0).resetn = false := by simpa using h.reset.rst_zero
  have hone := h.resetn le_rfl
  intro t ht
  induction t, ht using Nat.le_induction with
  | base =>
    have hpulses : Clocked.pulses (beats inp) 2 = 0 := by
      simp [Clocked.pulses, beats, hzero, In.transferred_eq, hquiet]
    rw [hpulses, run_succ, run_succ, step_of_reset hzero]
    refine ⟨?_, (intDataReg_step hone).trans (h.cfgData 1 le_rfl)⟩
    rw [cnt_step_of_quiet hone hquiet]
    rfl
  | succ t ht ih =>
    have hpos : 1 ≤ t := by omega
    have hbeat : (beats inp t).toNat = (inp t).newSample.toNat := by
      rw [beats, h.resetn hpos, Bool.true_and, In.transferred_eq]
    rw [Clocked.pulses, hbeat, run_succ]
    exact ih.step hn (h.resetn hpos) (h.cfgData t hpos)

/-- What is accepted is transferred in the same cycle, and every `n`-th beat
since the reset is the last of a packet. -/
theorem packets_lossless (h : Constant inp n) (hn : 1 ≤ n.toNat)
    (hquiet : (inp 1).newSample = false) (s : Regs cw) {t : ℕ} (ht : 1 ≤ t) :
    ((inp t).newSample = true ↔ (inp t).transferred = true ∧ (inp t).mTdata = (inp t).sTdata) ∧
      ((inp t).transferred = true →
        (mTlast (run s inp t) = true ↔ n.toNat ∣ Clocked.pulses (beats inp) t + 1)) := by
  refine ⟨(inp t).newSample_iff, ?_⟩
  intro htransferred
  rcases Nat.lt_or_ge t 2 with hlt | hge
  · obtain rfl : t = 1 := by omega
    rw [In.transferred_eq, hquiet] at htransferred
    exact absurd htransferred Bool.false_ne_true
  · exact (h.counts hn hquiet s t hge).mTlast_iff hn

end Runs

end Module

/-- Packets of two beats, with a beat in every cycle from the second on after the reset. -/
def pairs (t : ℕ) : In 8 4 where
  resetn := t != 0
  cfgData := 2
  enable := true
  sTvalid := decide (2 ≤ t)
  sTdata := BitVec.ofNat 8 t
  mTready := true

theorem pairs_constant : Constant pairs 2 where
  reset := ⟨rfl, fun _ => rfl⟩
  cfgData _ _ := rfl

theorem pairs_lossless :
    (pairs 3).transferred = true ∧ (pairs 3).mTdata = 3 ∧
      mTlast (run ⟨9, 5⟩ pairs 2) = false ∧ mTlast (run ⟨9, 5⟩ pairs 3) = true := by
  have hfirst := packets_lossless pairs_constant (by decide) rfl ⟨9, 5⟩ (t := 2) (by decide)
  have hsecond := packets_lossless pairs_constant (by decide) rfl ⟨9, 5⟩ (t := 3) (by decide)
  obtain ⟨htransferred, hdata⟩ := hsecond.1.mp (by decide)
  have hlast := (hfirst.2 (by decide)).not.mpr (by decide)
  exact ⟨htransferred, hdata, Bool.not_eq_true _ ▸ hlast, (hsecond.2 htransferred).mpr (by decide)⟩

end AxisTlast
