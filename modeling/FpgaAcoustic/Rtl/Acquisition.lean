-- SUMMARY: Acquisitions through the TLAST generator: when the first packet after the gate opens is a whole one.
import FpgaAcoustic.Rtl.AxisTlast

/-!
# Acquisitions

The driver writes the number of samples, opens the gate, and closes it again at
any time. The counter of the beats is reset by the last beat of a packet and by
nothing else, so an acquisition goes on counting where the one before stopped.
-/

namespace AxisTlast

section Packet

variable {td cw : ℕ}

/-! ## Open packets -/

/-- The beats since the last one with TLAST, or since the reset. -/
def openBeats (s : Regs cw) (inp : ℕ → In td cw) : ℕ → ℕ
  | 0 => 0
  | t + 1 =>
    if !(inp t).resetn then 0
    else if (inp t).transferred then
      if mTlast (run s inp t) then 0 else openBeats s inp t + 1
    else openBeats s inp t

/-- The counter keeps the beats of the open packet, as far as its width allows. -/
theorem cnt_eq_openBeats {inp : ℕ → In td cw} (hreset : Clocked.ResetFirst fun t => !(inp t).resetn)
    (s : Regs cw) {t : ℕ} (ht : 1 ≤ t) :
    (run s inp t).cnt.toNat = openBeats s inp t % 2 ^ (cw + 1) := by
  induction t, ht using Nat.le_induction with
  | base =>
    have hzero : (inp 0).resetn = false := by simpa using hreset.rst_zero
    rw [run_succ, step_of_reset hzero, openBeats, hzero]
    rfl
  | succ t ht ih =>
    have hone : (inp t).resetn = true := hreset.high ht
    rw [run_succ, openBeats, hone, In.transferred_eq]
    cases hnew : (inp t).newSample with
    | false => rw [cnt_step_of_quiet hone hnew, ih]; rfl
    | true =>
      cases hlast : mTlast (run s inp t) with
      | false =>
        rw [cnt_step_of_beat hone hnew hlast, BitVec.toNat_add, ih, BitVec.toNat_ofNat,
          ← Nat.add_mod]
        rfl
      | true => rw [cnt_step_of_last hnew hlast]; rfl

/-! ## The first packet -/

/-- The gate stays open, and so does the length of a packet. -/
structure Opened (next : ℕ → In td cw) (n : BitVec cw) : Prop where
  resetn : ∀ t, (next t).resetn = true
  enable : ∀ t, (next t).enable = true
  cfgData : ∀ t, (next t).cfgData = n

/-- Whatever follows while the gate is open, TLAST is on the `n`-th beat and on
none before. -/
def WholePacket (td : ℕ) (n : BitVec cw) (s : Regs cw) : Prop :=
  ∀ next : ℕ → In td cw, Opened next n → ∀ t, (next t).transferred = true →
    Clocked.pulses (fun t => (next t).transferred) t < n.toNat →
      (mTlast (run s next t) = true ↔
        Clocked.pulses (fun t => (next t).transferred) t + 1 = n.toNat)

variable {n : BitVec cw} {s : Regs cw}

/-- With nothing counted, the first packet is whole. -/
theorem wholePacket_of_cnt (hn : 1 ≤ n.toNat) (hlen : s.intDataReg = n) (hcnt : s.cnt.toNat = 0) :
    WholePacket td n s := by
  intro next hnext t _ hlt
  have hcounts : ∀ t, Counts n (Clocked.pulses (fun t => (next t).transferred) t)
      (run s next t) := by
    intro t
    induction t with
    | zero => exact ⟨hcnt.trans (Nat.zero_mod _).symm, hlen⟩
    | succ t ih =>
      rw [Clocked.pulses, In.transferred_eq, run_succ]
      exact ih.step hn (hnext.resetn t) (hnext.cfgData t)
  rw [(hcounts t).mTlast_iff hn]
  constructor
  · intro hdvd
    have hle := Nat.le_of_dvd (Nat.succ_pos _) hdvd
    omega
  · intro heq
    rw [heq]

/-- A beat in every cycle. -/
def flowing (td : ℕ) (n : BitVec cw) (_ : ℕ) : In td cw :=
  { resetn := true, cfgData := n, enable := true, sTvalid := true, sTdata := 0, mTready := true }

theorem flowing_opened (n : BitVec cw) : Opened (flowing td n) n :=
  ⟨fun _ => rfl, fun _ => rfl, fun _ => rfl⟩

theorem flowing_transferred (n : BitVec cw) (t : ℕ) : (flowing td n t).transferred = true := by
  rw [In.transferred_eq, In.newSample_eq]
  rfl

theorem pulses_flowing (n : BitVec cw) (t : ℕ) :
    Clocked.pulses (fun t => (flowing td n t).transferred) t = t := by
  induction t with
  | zero => rfl
  | succ t ih => rw [Clocked.pulses_succ_of_true (flowing_transferred n t), ih]

/-- If the first packet is whole, nothing was counted before it. -/
theorem cnt_of_wholePacket (hn : 1 ≤ n.toNat) (hlen : s.intDataReg = n)
    (h : WholePacket td n s) : s.cnt.toNat = 0 := by
  have hlast : ∀ t < n.toNat, mTlast (run s (flowing td n) t) = true ↔ t + 1 = n.toNat := by
    intro t ht
    have hbeat := h _ (flowing_opened n) t (flowing_transferred n t)
    rw [pulses_flowing] at hbeat
    exact hbeat ht
  have hcnt : ∀ t < n.toNat, (run s (flowing td n) t).cnt.toNat = (s.cnt.toNat + t) % 2 ^ (cw + 1) ∧
      (run s (flowing td n) t).intDataReg = n := by
    intro t
    induction t with
    | zero => exact fun _ => ⟨(Nat.mod_eq_of_lt s.cnt.isLt).symm, hlen⟩
    | succ t ih =>
      intro ht
      obtain ⟨hcnt, -⟩ := ih (Nat.lt_of_succ_lt ht)
      have hnot : mTlast (run s (flowing td n) t) = false := by
        rw [← Bool.not_eq_true, hlast t (Nat.lt_of_succ_lt ht)]
        omega
      have hnew : (flowing td n t).newSample = true := by
        rw [← In.transferred_eq]
        exact flowing_transferred n t
      refine ⟨?_, intDataReg_step rfl⟩
      rw [run_succ, cnt_step_of_beat rfl hnew hnot, BitVec.toNat_add, hcnt, BitVec.toNat_ofNat,
        ← Nat.add_mod, Nat.add_assoc]
  obtain ⟨hcount, hlength⟩ := hcnt (n.toNat - 1) (by omega)
  have hfull := (hlast (n.toNat - 1) (by omega)).mpr (by omega)
  have hpos : 1 ≤ (run s (flowing td n) (n.toNat - 1)).intDataReg.toNat := by rwa [hlength]
  rw [mTlast_iff hpos, hcount, hlength] at hfull
  have hs := s.cnt.isLt
  have hnlt := n.isLt
  rw [pow_succ] at hs hfull
  rcases Nat.lt_or_ge (s.cnt.toNat + (n.toNat - 1)) (2 ^ cw * 2) with hlt | hge
  · rw [Nat.mod_eq_of_lt hlt] at hfull
    omega
  · rw [Nat.mod_eq_sub_mod hge, Nat.mod_eq_of_lt (by omega)] at hfull
    omega

/-- After any run, the first packet is whole just when no beats are open that the
counter still knows. -/
theorem wholePacket_iff_openBeats {inp : ℕ → In td cw}
    (hreset : Clocked.ResetFirst fun t => !(inp t).resetn) (s : Regs cw) {t : ℕ} (ht : 1 ≤ t)
    (hn : 1 ≤ n.toNat) (hcfg : (inp t).cfgData = n) :
    WholePacket td n (run s inp (t + 1)) ↔ openBeats s inp (t + 1) % 2 ^ (cw + 1) = 0 := by
  have hlen : (run s inp (t + 1)).intDataReg = n := (intDataReg_step (hreset.high ht)).trans hcfg
  rw [← cnt_eq_openBeats hreset s (Nat.le_add_left 1 t)]
  exact ⟨cnt_of_wholePacket hn hlen, wholePacket_of_cnt hn hlen⟩

end Packet

end AxisTlast

/-! ## The driver -/

namespace Sesenta

/-- The control registers of the two streams. -/
structure Ctl where
  nSamples : BitVec 32
  dmaGate : BitVec 32
  dmaGate1 : BitVec 32
  deriving DecidableEq, Repr

/-- The calls of the driver that write to one of them. -/
inductive Write
  | setNsamples (samples : BitVec 32)
  | dmaOn
  | dmaOff
  | dma1On
  | dma1Off
  deriving DecidableEq, Repr

/-- `set_bit` and `clear_bit`. -/
def setBit (reg : BitVec 32) (index : ℕ) : BitVec 32 := reg ||| (1#32 <<< index)

def clearBit (reg : BitVec 32) (index : ℕ) : BitVec 32 := reg &&& ~~~(1#32 <<< index)

def Ctl.write (c : Ctl) : Write → Ctl
  | .setNsamples samples => { c with nSamples := samples }
  | .dmaOn => { c with dmaGate := setBit c.dmaGate 0 }
  | .dmaOff => { c with dmaGate := clearBit c.dmaGate 0 }
  | .dma1On => { c with dmaGate1 := setBit c.dmaGate1 0 }
  | .dma1Off => { c with dmaGate1 := clearBit c.dmaGate1 0 }

/-- `read_offset`. -/
def readOffset : BitVec 32 := 5

/-- What `start_dma_transfer` writes, one after the other. -/
def startDmaTransfer (samples : BitVec 32) : List Write :=
  [.setNsamples (samples + readOffset), .dmaOn, .dma1On]

/-- What comes in from outside in a cycle: at most one write of the driver, and
the signals of the two streams of one generator. -/
structure Cycle where
  resetn : Bool
  write : Option Write
  sTvalid : Bool
  sTdata : BitVec 256
  mTready : Bool

/-- The control registers in each cycle. -/
def ctl (c : Ctl) (inp : ℕ → Cycle) : ℕ → Ctl :=
  Clocked.run (fun c i => (i.write.map c.write).getD c) c inp

/-- The two generators, `tlast_gen_0` and `tlast_gen_1`. -/
inductive Channel
  | gen0
  | gen1
  deriving DecidableEq, Repr

/-- The slice of the gate register that enables the generator. -/
def Channel.enable (channel : Channel) (c : Ctl) : Bool :=
  match channel with
  | gen0 => c.dmaGate.getLsbD 0
  | gen1 => c.dmaGate1.getLsbD 0

/-- What a generator finds in each cycle. -/
def tlastIn (channel : Channel) (c : Ctl) (inp : ℕ → Cycle) (t : ℕ) : AxisTlast.In 256 32 where
  resetn := (inp t).resetn
  cfgData := (ctl c inp t).nSamples
  enable := channel.enable (ctl c inp t)
  sTvalid := (inp t).sTvalid
  sTdata := (inp t).sTdata
  mTready := (inp t).mTready

/-- `n` samples have been asked for, the gate is closed in cycle `t`, and open in the next. -/
structure Opens (channel : Channel) (c : Ctl) (inp : ℕ → Cycle) (t : ℕ) (n : BitVec 32) : Prop where
  nSamples : (ctl c inp t).nSamples = n
  closed : channel.enable (ctl c inp t) = false
  opened : channel.enable (ctl c inp (t + 1)) = true

/-- An acquisition gets a whole packet just when the ones before have left none
open, up to a multiple of what the counter can hold. -/
theorem acquisition_whole_iff {channel : Channel} {c : Ctl} {inp : ℕ → Cycle} {t : ℕ}
    {n : BitVec 32} (s : AxisTlast.Regs 32) (hreset : Clocked.ResetFirst fun t => !(inp t).resetn)
    (ht : 1 ≤ t) (hopens : Opens channel c inp t n) (hn : 1 ≤ n.toNat) :
    AxisTlast.WholePacket 256 n (AxisTlast.run s (tlastIn channel c inp) (t + 1)) ↔
      AxisTlast.openBeats s (tlastIn channel c inp) (t + 1) % 2 ^ 33 = 0 :=
  AxisTlast.wholePacket_iff_openBeats hreset s ht hn hopens.nSamples

/-! ## A packet that is left open -/

/-- The writes of two acquisitions of one sample and the offset, with the gates
closed in between. -/
def writes : List (Option Write) :=
  none :: (startDmaTransfer 1).map some ++ List.replicate 8 none ++
    [some .dmaOff, some .dma1Off] ++ (startDmaTransfer 1).map some

/-- The first acquisition is closed after this many beats. -/
def acquisitions (first : ℕ) (t : ℕ) : Cycle where
  resetn := t != 0
  write := writes.getD t none
  sTvalid := decide (3 ≤ t ∧ t < 3 + first)
  sTdata := 0
  mTready := true

theorem acquisitions_opens (first : ℕ) : Opens .gen0 ⟨0, 0, 0⟩ (acquisitions first) 15 6 := by
  have hctl : ctl ⟨0, 0, 0⟩ (acquisitions first) = ctl ⟨0, 0, 0⟩ (acquisitions 0) := by
    funext t
    induction t with
    | zero => rfl
    | succ t ih =>
      unfold ctl at ih ⊢
      rw [Clocked.run_succ, Clocked.run_succ, ih]
      rfl
  refine ⟨?_, ?_, ?_⟩ <;> rw [hctl] <;> decide +kernel

theorem acquisitions_whole :
    AxisTlast.WholePacket 256 6
      (AxisTlast.run ⟨0, 0⟩ (tlastIn .gen0 ⟨0, 0, 0⟩ (acquisitions 6)) 16) :=
  (acquisition_whole_iff ⟨0, 0⟩ ⟨rfl, fun _ => rfl⟩ (by decide) (acquisitions_opens 6)
    (by decide)).mpr (by decide +kernel)

/-- After five beats of six, the first beat of the second acquisition has TLAST. -/
theorem acquisitions_not_whole :
    Opens .gen0 ⟨0, 0, 0⟩ (acquisitions 5) 15 6 ∧
      ¬ AxisTlast.WholePacket 256 6
        (AxisTlast.run ⟨0, 0⟩ (tlastIn .gen0 ⟨0, 0, 0⟩ (acquisitions 5)) 16) := by
  refine ⟨acquisitions_opens 5, ?_⟩
  intro hwhole
  have hfirst := hwhole _ (AxisTlast.flowing_opened 6) 0 (AxisTlast.flowing_transferred 6 0)
    (by decide)
  have hlast : AxisTlast.mTlast (AxisTlast.run
      (AxisTlast.run ⟨0, 0⟩ (tlastIn .gen0 ⟨0, 0, 0⟩ (acquisitions 5)) 16)
      (AxisTlast.flowing 256 6) 0) = true := by
    decide +kernel
  exact absurd (hfirst.mp hlast) (by decide)

end Sesenta
