-- SUMMARY: The sample stream of axis_variable.v through the TLAST generator, and when a beat that has to wait stays as it is.
import FpgaAcoustic.Rtl.AxisTlast

/-!
# The sample stream

A stream source may not withdraw or change a beat before it is transferred. The
validity of a sample is registered and waits, but the data is sampled again with
every edge, and the gate and the length of a packet may change in between.
-/

namespace AxisVariable

variable {w : ℕ}

/-- The inputs of a cycle. -/
structure In (w : ℕ) where
  aresetn : Bool
  ctrl : Bool
  cfgData : BitVec w
  mTready : Bool

/-- The registers, which are the outputs as well. -/
structure Regs (w : ℕ) where
  intTdataReg : BitVec w
  intTvalidReg : Bool
  deriving DecidableEq, Repr

/-- `int_tvalid_next`, of which the second assignment overrides the first. -/
def intTvalidNext (s : Regs w) (i : In w) : Bool :=
  let next := if i.ctrl then true else s.intTvalidReg
  if i.mTready && s.intTvalidReg then false else next

/-- One rising edge of `aclk`. -/
def step (s : Regs w) (i : In w) : Regs w :=
  if !i.aresetn then ⟨0#w, false⟩ else ⟨i.cfgData, intTvalidNext s i⟩

/-- A sample that is not accepted stays valid. -/
theorem step_of_stalled {s : Regs w} {i : In w} (hreset : i.aresetn = true)
    (hready : i.mTready = false) (hvalid : s.intTvalidReg = true) :
    step s i = ⟨i.cfgData, true⟩ := by
  simp [step, intTvalidNext, hreset, hready, hvalid]

end AxisVariable

namespace AxisStream

variable {w cw : ℕ}

/-- The inputs of a cycle, where `cfg_data` of the source is the sample and that
of the generator is the length of a packet. -/
structure In (w cw : ℕ) where
  resetn : Bool
  ctrl : Bool
  sample : BitVec w
  nSamples : BitVec cw
  enable : Bool
  mTready : Bool

structure Regs (w cw : ℕ) where
  source : AxisVariable.Regs w
  tlast : AxisTlast.Regs cw
  deriving DecidableEq, Repr

/-- What the generator finds at its inputs. -/
def tlastIn (s : Regs w cw) (i : In w cw) : AxisTlast.In w cw where
  resetn := i.resetn
  cfgData := i.nSamples
  enable := i.enable
  sTvalid := s.source.intTvalidReg
  sTdata := s.source.intTdataReg
  mTready := i.mTready

def sourceIn (s : Regs w cw) (i : In w cw) : AxisVariable.In w where
  aresetn := i.resetn
  ctrl := i.ctrl
  cfgData := i.sample
  mTready := (tlastIn s i).sTready

def step (s : Regs w cw) (i : In w cw) : Regs w cw where
  source := AxisVariable.step s.source (sourceIn s i)
  tlast := AxisTlast.step s.tlast (tlastIn s i)

/-- The state in each cycle of a run. -/
def run (s : Regs w cw) (inp : ℕ → In w cw) : ℕ → Regs w cw := Clocked.run step s inp

/-- The outputs of a cycle. -/
structure Beat (w : ℕ) where
  tvalid : Bool
  tdata : BitVec w
  tlast : Bool
  deriving DecidableEq, Repr

def beat (s : Regs w cw) (i : In w cw) : Beat w where
  tvalid := (tlastIn s i).mTvalid
  tdata := (tlastIn s i).mTdata
  tlast := AxisTlast.mTlast s.tlast

/-- A beat that has to wait. -/
def Stalled (s : Regs w cw) (i : In w cw) : Prop :=
  (beat s i).tvalid = true ∧ i.mTready = false

/-- A sample has been taken, the gate is open and the sink is not ready. -/
structure Pending (s : Regs w cw) (i : In w cw) : Prop where
  valid : s.source.intTvalidReg = true
  enable : i.enable = true
  notReady : i.mTready = false

/-- The gate is open in the next cycle, the sample has not changed since it was
taken, and the counter is at the end of a packet of the new length just when it
is at the end of one of the old. -/
structure Calm (s : Regs w cw) (i i' : In w cw) : Prop where
  enable : i'.enable = true
  sample : i.sample = s.source.intTdataReg
  nSamples : (s.tlast.cnt.toNat + 1) % 2 ^ AxisTlast.width cw = i.nSamples.toNat ↔
    (s.tlast.cnt.toNat + 1) % 2 ^ AxisTlast.width cw = s.tlast.intDataReg.toNat

/-! ## One cycle -/

section Cycle

variable {s : Regs w cw} {i i' : In w cw}

theorem beat_eq (s : Regs w cw) (i : In w cw) :
    beat s i = if i.enable then
      ⟨s.source.intTvalidReg, s.source.intTdataReg, AxisTlast.mTlast s.tlast⟩
    else ⟨false, 0#w, AxisTlast.mTlast s.tlast⟩ := by
  have henable : (tlastIn s i).enable = i.enable := rfl
  rw [beat, AxisTlast.In.mTvalid, AxisTlast.In.mTdata, AxisTlast.In.gate_eq, henable]
  cases i.enable <;> rfl

theorem stalled_iff : Stalled s i ↔ Pending s i := by
  rw [Stalled, beat_eq]
  constructor
  · rintro ⟨hvalid, hready⟩
    cases henable : i.enable with
    | false => simp [henable] at hvalid
    | true => exact ⟨by simpa [henable] using hvalid, henable, hready⟩
  · intro h
    rw [if_pos h.enable]
    exact ⟨h.valid, h.notReady⟩

/-- No beat is accepted, so only the sample and the length are taken over. -/
theorem step_of_pending (hreset : i.resetn = true) (h : Pending s i) :
    step s i = ⟨⟨i.sample, true⟩, ⟨s.tlast.cnt, i.nSamples⟩⟩ := by
  have hready : (tlastIn s i).sTready = false := by
    rw [AxisTlast.In.sTready, AxisTlast.In.gate_eq]
    show (if i.enable then _ else _ : AxisTlast.Gate w).inputReady = false
    rw [if_pos h.enable]
    exact h.notReady
  have hquiet : (tlastIn s i).newSample = false := by
    rw [AxisTlast.In.newSample, hready, Bool.and_false]
  have hcnt : (AxisTlast.step s.tlast (tlastIn s i)).cnt = s.tlast.cnt :=
    AxisTlast.cnt_step_of_quiet hreset hquiet
  have hlen : (AxisTlast.step s.tlast (tlastIn s i)).intDataReg = i.nSamples :=
    AxisTlast.intDataReg_step hreset
  have hsource : AxisVariable.step s.source (sourceIn s i) = ⟨i.sample, true⟩ :=
    AxisVariable.step_of_stalled hreset hready h.valid
  rw [step, hsource, ← hcnt, ← hlen]

theorem kept_iff (hreset : i.resetn = true) (h : Pending s i) :
    beat (step s i) i' = beat s i ↔ Calm s i i' := by
  have hlast : AxisTlast.mTlast ⟨s.tlast.cnt, i.nSamples⟩ = AxisTlast.mTlast s.tlast ↔
      ((s.tlast.cnt.toNat + 1) % 2 ^ AxisTlast.width cw = i.nSamples.toNat ↔
        (s.tlast.cnt.toNat + 1) % 2 ^ AxisTlast.width cw = s.tlast.intDataReg.toNat) := by
    rw [Bool.eq_iff_iff, AxisTlast.mTlast_iff_mod, AxisTlast.mTlast_iff_mod]
  rw [step_of_pending hreset h, beat_eq, beat_eq, if_pos h.enable, h.valid]
  cases henable : i'.enable with
  | false =>
    refine iff_of_false ?_ fun hcalm => ?_
    · simp
    · rw [hcalm.enable] at henable
      cases henable
  | true =>
    rw [if_pos rfl, Beat.mk.injEq, hlast]
    constructor
    · rintro ⟨-, hsample, hsame⟩
      exact ⟨henable, hsample, hsame⟩
    · intro hcalm
      exact ⟨rfl, hcalm.sample, hcalm.nSamples⟩

end Cycle

/-! ## Runs -/

/-- The handshake rule: a beat that has to wait is there in the next cycle, with
the same data and the same TLAST. -/
def Handshake (s : Regs w cw) (inp : ℕ → In w cw) : Prop :=
  ∀ t, Stalled (run s inp t) (inp t) →
    beat (run s inp (t + 1)) (inp (t + 1)) = beat (run s inp t) (inp t)

/-- Outside reset, the rule is kept just when each cycle in which a sample is
pending is calm. -/
theorem handshake_iff {inp : ℕ → In w cw} (hreset : ∀ t, (inp t).resetn = true) (s : Regs w cw) :
    Handshake s inp ↔
      ∀ t, Pending (run s inp t) (inp t) → Calm (run s inp t) (inp t) (inp (t + 1)) := by
  constructor
  · intro hkept t hpending
    exact (kept_iff (hreset t) hpending).mp (hkept t (stalled_iff.mpr hpending))
  · intro hcalm t hstalled
    have hpending := stalled_iff.mp hstalled
    exact (kept_iff (hreset t) hpending).mpr (hcalm t hpending)

/-- A sample that comes in cycle `0` and waits for three cycles, while the gate
is open up to cycle `opened`. -/
def waiting (sample : ℕ → BitVec 8) (opened t : ℕ) : In 8 4 where
  resetn := true
  ctrl := t == 0
  sample := sample t
  nSamples := 2
  enable := decide (t ≤ opened)
  mTready := decide (4 ≤ t)

/-- The registers after a reset. -/
def reset : Regs 8 4 := ⟨⟨0, false⟩, ⟨0, 0⟩⟩

/-- The beat in each cycle of `waiting`. -/
def waitingBeat (sample : ℕ → BitVec 8) (opened t : ℕ) : Beat 8 :=
  beat (run reset (waiting sample opened) t) (waiting sample opened t)

theorem lt_of_pending {s : Regs 8 4} {sample : ℕ → BitVec 8} {opened t : ℕ}
    (h : Pending s (waiting sample opened t)) : t < 4 := by
  by_contra hge
  have hready : decide (4 ≤ t) = false := h.notReady
  rw [decide_eq_false_iff_not] at hready
  exact hready (Nat.le_of_not_lt hge)

theorem waiting_handshake : Handshake reset (waiting (fun _ => 7) 9) := by
  refine (handshake_iff (fun _ => rfl) _).mpr ?_
  intro t hpending
  match t, lt_of_pending hpending with
  | 0, _ => exact absurd hpending.valid (by decide)
  | 1, _ => exact ⟨rfl, rfl, Iff.rfl⟩
  | 2, _ => exact ⟨rfl, rfl, Iff.rfl⟩
  | 3, _ => exact ⟨rfl, rfl, Iff.rfl⟩

theorem not_handshake_of_beats {sample : ℕ → BitVec 8} {opened : ℕ}
    (hvalid : (waitingBeat sample opened 2).tvalid = true)
    (hne : waitingBeat sample opened 3 ≠ waitingBeat sample opened 2) :
    ¬ Handshake reset (waiting sample opened) :=
  fun h => hne (h 2 ⟨hvalid, rfl⟩)

/-- A gate that closes withdraws a beat that waits, and a sample that changes
replaces its data. -/
theorem waiting_not_handshake :
    (waitingBeat (fun _ => 7) 2 2 = ⟨true, 7, false⟩ ∧
      waitingBeat (fun _ => 7) 2 3 = ⟨false, 0, false⟩ ∧
      ¬ Handshake reset (waiting (fun _ => 7) 2)) ∧
    (waitingBeat (BitVec.ofNat 8) 9 2 = ⟨true, 1, false⟩ ∧
      waitingBeat (BitVec.ofNat 8) 9 3 = ⟨true, 2, false⟩ ∧
      ¬ Handshake reset (waiting (BitVec.ofNat 8) 9)) := by
  refine ⟨⟨?_, ?_, not_handshake_of_beats ?_ ?_⟩, ?_, ?_, not_handshake_of_beats ?_ ?_⟩ <;> decide

end AxisStream
