-- SUMMARY: start_dma_transfer and the transfers of DmaS2MM, and the requests whose packets fit the length the DMAs keep.
import FpgaAcoustic.Rtl.Acquisition

/-!
# DMA transfers

The driver writes the number of samples and programs both S2MM channels with a
length computed from it. A packet has as many beats as `n_samples` says. A
channel keeps the low 23 bits of the length.

The channels change their control and status registers on their own. So what the
driver loads from them is not determined by what it has stored.
-/

namespace DmaS2MM

open Sesenta (setBit)

/-- `dma` and `dma1`. -/
inductive Device
  | dma
  | dma1
  deriving DecidableEq, Repr

/-- The registers of a channel that the driver accesses. -/
inductive Reg
  | s2mmDmacr
  | s2mmDmasr
  | s2mmDa
  | s2mmLength
  deriving DecidableEq, Repr

def Reg.offset : Reg → ℕ
  | s2mmDmacr => 0x30
  | s2mmDmasr => 0x34
  | s2mmDa => 0x48
  | s2mmLength => 0x58

structure Store where
  dev : Device
  reg : Reg
  value : BitVec 32
  deriving DecidableEq, Repr

/-- The values of the loads to come, and the stores so far. -/
structure Bus where
  loads : ℕ → Device → Reg → BitVec 32
  stores : List Store

namespace Bus

def load (dev : Device) (reg : Reg) (b : Bus) : BitVec 32 × Bus :=
  (b.loads 0 dev reg, { b with loads := fun k => b.loads (k + 1) })

def write (dev : Device) (reg : Reg) (value : BitVec 32) (b : Bus) : Bus :=
  { b with stores := b.stores ++ [⟨dev, reg, value⟩] }

def setBit (dev : Device) (reg : Reg) (index : ℕ) (b : Bus) : Bus :=
  let (value, b) := b.load dev reg
  b.write dev reg (Sesenta.setBit value index)

def readBit (dev : Device) (reg : Reg) (index : ℕ) (b : Bus) : Bool × Bus :=
  let (value, b) := b.load dev reg
  (value.getLsbD index, b)

end Bus

def maxSleepsCnt : ℕ := 4

/-- One of the polling loops, with the sleeps of the loop before it counted. -/
def waitWhile (dev : Device) (reg : Reg) (index cnt : ℕ) (b : Bus) : ℕ × Bus :=
  let (set, b) := b.readBit dev reg index
  if set then
    if maxSleepsCnt < cnt + 1 then (cnt + 1, b) else waitWhile dev reg index (cnt + 1) b
  else (cnt, b)
termination_by maxSleepsCnt - cnt

def reset (b : Bus) : Bus :=
  let b := (b.setBit .dma .s2mmDmacr 2).setBit .dma1 .s2mmDmacr 2
  let (cnt, b) := waitWhile .dma .s2mmDmacr 2 0 b
  (waitWhile .dma1 .s2mmDmacr 2 cnt b).2

/-- The status bit `0` is what `halted` and `halted1` read. -/
def start (b : Bus) : Bus :=
  let b := (b.setBit .dma .s2mmDmacr 0).setBit .dma1 .s2mmDmacr 0
  let (cnt, b) := waitWhile .dma .s2mmDmasr 0 0 b
  (waitWhile .dma1 .s2mmDmasr 0 cnt b).2

def setDestinationAddress (address address2 : BitVec 32) (b : Bus) : Bus :=
  (b.write .dma .s2mmDa address).write .dma1 .s2mmDa address2

def setLength (length : BitVec 32) (b : Bus) : Bus :=
  (b.write .dma .s2mmLength length).write .dma1 .s2mmLength length

def setupTransfer (destAddr destAddr2 length : BitVec 32) (b : Bus) : Bus :=
  setLength length (setDestinationAddress destAddr destAddr2 (start (reset b)))

/-! ## The length a channel keeps -/

/-- `c_sg_length_width`. -/
def sgLengthWidth : ℕ := 23

/-- The length register of a channel after the stores, `0` after the reset of the
hardware. -/
def keptLength (dev : Device) (stores : List Store) : BitVec sgLengthWidth :=
  stores.foldl (fun length s =>
    if s.dev = dev ∧ s.reg = .s2mmLength then s.value.setWidth sgLengthWidth else length) 0

theorem keptLength_append (dev : Device) (stores : List Store) (s : Store) :
    keptLength dev (stores ++ [s]) =
      if s.dev = dev ∧ s.reg = .s2mmLength then s.value.setWidth sgLengthWidth
      else keptLength dev stores := by
  rw [keptLength, List.foldl_append]
  rfl

/-- Both channels keep the length they are programmed with, cut to their width,
whatever they have answered while they were polled. -/
theorem keptLength_setupTransfer (dev : Device) (destAddr destAddr2 length : BitVec 32) (b : Bus) :
    keptLength dev (setupTransfer destAddr destAddr2 length b).stores =
      length.setWidth sgLengthWidth := by
  rw [setupTransfer, setLength]
  generalize setDestinationAddress destAddr destAddr2 (start (reset b)) = b
  cases dev
  · simp only [Bus.write, keptLength_append]
    rfl
  · simp only [Bus.write, keptLength_append]
    rfl

end DmaS2MM

/-! ## Requests -/

namespace DmaTransfer

open Sesenta DmaS2MM

/-- `ram_addr` and `ram2_addr`. -/
def ramAddr : BitVec 32 := 0x1E000000#32
def ram2Addr : BitVec 32 := 0x1F000000#32

/-- The control registers and the bus of the two channels. -/
structure State where
  ctl : Ctl
  bus : Bus

/-- Up to the sleeps of `wait_for_transfer`. -/
def startDmaTransfer (samples : BitVec 32) (s : State) : State :=
  let ctl := s.ctl.write (.setNsamples (samples + readOffset))
  let npoints := ctl.nSamples
  let bus := setupTransfer ramAddr ram2Addr (256#32 * npoints) s.bus
  { ctl := (ctl.write .dmaOn).write .dma1On, bus := bus }

/-- The writes to the control registers are those of an acquisition. -/
theorem startDmaTransfer_ctl (samples : BitVec 32) (s : State) :
    (startDmaTransfer samples s).ctl = (Sesenta.startDmaTransfer samples).foldl Ctl.write s.ctl :=
  rfl

/-- The bytes of a packet of `n_samples` beats of 256 bits. -/
def packetBytes (s : State) : ℕ := 256 / 8 * s.ctl.nSamples.toNat

/-- The length each channel has kept is enough for the packet. -/
def Covers (s : State) : Prop :=
  ∀ dev, packetBytes s ≤ (keptLength dev s.bus.stores).toNat

variable {samples : BitVec 32} {s : State}

@[simp] theorem startDmaTransfer_nSamples :
    (startDmaTransfer samples s).ctl.nSamples = samples + readOffset := rfl

/-- The programmed length counts `256` for a beat, and 15 bits of the beats are
kept. -/
theorem toNat_keptLength (dev : Device) :
    (keptLength dev (startDmaTransfer samples s).bus.stores).toNat =
      256 * ((samples + readOffset).toNat % 2 ^ 15) := by
  have hkept : keptLength dev (startDmaTransfer samples s).bus.stores =
      (256#32 * (samples + readOffset)).setWidth sgLengthWidth :=
    keptLength_setupTransfer dev ramAddr ram2Addr _ s.bus
  rw [hkept, BitVec.toNat_setWidth, BitVec.toNat_mul, BitVec.toNat_ofNat, sgLengthWidth]
  omega

theorem covers_iff_le :
    Covers (startDmaTransfer samples s) ↔
      32 * (samples + readOffset).toNat ≤ 256 * ((samples + readOffset).toNat % 2 ^ 15) := by
  simp only [Covers, packetBytes, toNat_keptLength, startDmaTransfer_nSamples]
  exact ⟨fun h => h .dma, fun h _ => h⟩

/-- Requests of fewer than `2 ^ 15` beats are covered, eight times over. -/
theorem covers_of_lt (h : (samples + readOffset).toNat < 2 ^ 15) :
    Covers (startDmaTransfer samples s) := by
  rw [covers_iff_le, Nat.mod_eq_of_lt h]
  omega

/-- From `7 * 2 ^ 15` beats on no request is covered. -/
theorem not_covers_of_le (h : 7 * 2 ^ 15 ≤ (samples + readOffset).toNat) :
    ¬ Covers (startDmaTransfer samples s) := by
  rw [covers_iff_le]
  omega

/-- Each `2 ^ 15` beats that the register drops have to be made up by the beats
it keeps, at seven for one. -/
theorem covers_iff (samples : BitVec 32) (s : State) :
    Covers (startDmaTransfer samples s) ↔
      2 ^ 15 * ((samples + readOffset).toNat / 2 ^ 15) ≤
        7 * ((samples + readOffset).toNat % 2 ^ 15) := by
  rw [covers_iff_le]
  omega

/-- Closed gates and channels that answer `0`. -/
def idle : State := ⟨⟨0, 0, 0⟩, ⟨fun _ _ _ => 0, []⟩⟩

/-- With `2 ^ 15` beats both channels keep the length `0`. -/
theorem wrapped_not_covers : ¬ Covers (startDmaTransfer 32763 idle) := by
  rw [covers_iff_le]
  decide

end DmaTransfer
