-- SUMMARY: The register-level models of axi_ctl_register.v and axi_sts_register.v: what the control registers hold, and when each transaction has its answer.
import Mathlib.Data.BitVec
import FpgaAcoustic.Build.RegisterMap
import FpgaAcoustic.Signal.Handshake

/-!
# AXI registers

A write is taken in a cycle in which its address and its data are both valid, so
the two channels stay in step however late either of them is. The words are
flip-flops with a clock enable for each byte. A read is taken in every cycle in
which its address is valid.

Each of the two response channels has one place. The masters that wait for an
answer before they ask again are the ones that have an answer for each request.
-/

namespace AxiRegister

open RegisterMap (clogb2)

/-! ## Words by their bits -/

/-- The word with these bits, of which number `0` is the lowest. -/
def ofBits (f : ℕ → Bool) : (w : ℕ) → BitVec w
  | 0 => BitVec.nil
  | w + 1 => BitVec.cons (f w) (ofBits f w)

@[simp] theorem getLsbD_ofBits (f : ℕ → Bool) (w k : ℕ) :
    (ofBits f w).getLsbD k = (decide (k < w) && f k) := by
  induction w with
  | zero => simp
  | succ w ih =>
    rw [ofBits, BitVec.getLsbD_cons, ih]
    rcases Nat.lt_trichotomy k w with hlt | rfl | hgt
    · simp [hlt, hlt.ne, Nat.lt_succ_of_lt hlt]
    · simp
    · simp [hgt.ne', hgt.not_gt, Nat.not_lt.mpr hgt]

/-! ## Parameters -/

/-- `ADDR_LSB`. -/
def addrLsb (axiDataWidth : ℕ) : ℕ := clogb2 (axiDataWidth / 8 - 1)

/-- `CTL_WIDTH` and `STS_WIDTH`, from the number of words. -/
def selectWidth (size : ℕ) : ℕ := if size > 1 then clogb2 (size - 1) else 1

/-- The parameters of an instance of either module. `dataWidth` is
`CTL_DATA_WIDTH` or `STS_DATA_WIDTH`; the slice of an address that selects a
word lies in the address. -/
structure Params where
  dataWidth : ℕ
  axiDataWidth : ℕ
  axiAddrWidth : ℕ
  axiDataWidth_pos : 0 < axiDataWidth
  eight_dvd : 8 ∣ axiDataWidth
  le_dataWidth : axiDataWidth ≤ dataWidth
  room : addrLsb axiDataWidth + selectWidth (dataWidth / axiDataWidth) ≤ axiAddrWidth

namespace Params

variable (P : Params)

/-- `CTL_SIZE` and `STS_SIZE`. -/
def size : ℕ := P.dataWidth / P.axiDataWidth

abbrev Word : Type := BitVec P.axiDataWidth
abbrev Addr : Type := BitVec P.axiAddrWidth
abbrev Strobe : Type := BitVec (P.axiDataWidth / 8)

/-- The word that an address selects; there need not be one. -/
def select (addr : P.Addr) : ℕ :=
  (addr.extractLsb' (addrLsb P.axiDataWidth) (selectWidth P.size)).toNat

theorem select_eq (addr : P.Addr) :
    P.select addr = addr.toNat / 2 ^ addrLsb P.axiDataWidth % 2 ^ selectWidth P.size := by
  rw [select, BitVec.extractLsb'_toNat, Nat.shiftRight_eq_div_pow]

end Params

/-! ## The read channel -/

/-- The registers of the read channel, which is the same in both modules. -/
@[ext] structure Read (w : ℕ) where
  intRvalidReg : Bool
  intRdataReg : BitVec w
  deriving DecidableEq, Repr

namespace Read

variable {w : ℕ}

/-- `int_rvalid_next`, of which the second assignment overrides the first. -/
def intRvalidNext (s : Read w) (arvalid rready : Bool) : Bool :=
  let next := if arvalid then true else s.intRvalidReg
  if rready && s.intRvalidReg then false else next

def intRdataNext (s : Read w) (arvalid : Bool) (dataMux : BitVec w) : BitVec w :=
  if arvalid then dataMux else s.intRdataReg

def step (s : Read w) (aresetn arvalid rready : Bool) (dataMux : BitVec w) : Read w :=
  if !aresetn then ⟨false, 0#w⟩
  else ⟨s.intRvalidNext arvalid rready, s.intRdataNext arvalid dataMux⟩

section Run

variable {read : ℕ → Read w} {arvalid rready : ℕ → Bool} {dataMux : ℕ → BitVec w} {f : ℕ}

theorem responder (hempty : (read f).intRvalidReg = false)
    (hstep : ∀ t, f ≤ t → read (t + 1) = (read t).step true (arvalid t) (rready t) (dataMux t)) :
    Clocked.Responder arvalid rready (fun t => (read t).intRvalidReg) f where
  empty := hempty
  next t ht := by
    rw [hstep t ht]
    simp only [step, Bool.not_true, Bool.false_eq_true, if_false, intRvalidNext]
    cases arvalid t <;> cases rready t <;> cases (read t).intRvalidReg <;> rfl

theorem registers
    (hstep : ∀ t, f ≤ t → read (t + 1) = (read t).step true (arvalid t) (rready t) (dataMux t)) :
    Clocked.Registers arvalid dataMux (fun t => (read t).intRdataReg) f := by
  intro t ht
  show (read (t + 1)).intRdataReg = _
  rw [hstep t ht]
  rfl

end Run

end Read

end AxiRegister

/-! ## The control registers -/

namespace AxiCtlRegister

open AxiRegister

/-- The inputs of a cycle. `unknown` is what a read beyond the words finds. -/
structure In (P : Params) where
  aresetn : Bool
  awaddr : P.Addr
  awvalid : Bool
  wdata : P.Word
  wstrb : P.Strobe
  wvalid : Bool
  bready : Bool
  araddr : P.Addr
  arvalid : Bool
  rready : Bool
  unknown : P.Word

structure Regs (P : Params) where
  words : Fin P.size → P.Word
  intBvalidReg : Bool
  read : Read P.axiDataWidth

variable {P : Params}

/-- A flip-flop `FDRE`, whose reset overrides its clock enable. -/
def fdre (ce r d q : Bool) : Bool := if r then false else if ce then d else q

/-- `int_wvalid_wire`, which is `s_axi_awready` and `s_axi_wready` as well. -/
def In.intWvalidWire (i : In P) : Bool := i.awvalid && i.wvalid

/-- `int_ce_wire[j]`. -/
def In.intCeWire (i : In P) (j : ℕ) : Bool := i.intWvalidWire && decide (P.select i.awaddr = j)

/-- `int_data_mux[..]` at the address that is read. -/
def dataMux (words : Fin P.size → P.Word) (i : In P) : P.Word :=
  if h : P.select i.araddr < P.size then words ⟨P.select i.araddr, h⟩ else i.unknown

/-- `int_bvalid_next`, of which the second assignment overrides the first. -/
def intBvalidNext (s : Regs P) (i : In P) : Bool :=
  let next := if i.intWvalidWire then true else s.intBvalidReg
  if i.bready && s.intBvalidReg then false else next

/-- One rising edge of `aclk`. -/
def step (s : Regs P) (i : In P) : Regs P where
  words j := ofBits (fun k =>
    fdre (i.intCeWire j && i.wstrb.getLsbD (k / 8)) (!i.aresetn) (i.wdata.getLsbD k)
      ((s.words j).getLsbD k)) P.axiDataWidth
  intBvalidReg := if !i.aresetn then false else intBvalidNext s i
  read := s.read.step i.aresetn i.arvalid i.rready (dataMux s.words i)

/-- The state in each cycle of a run. -/
def run (s : Regs P) (inp : ℕ → In P) : ℕ → Regs P := Clocked.run step s inp

theorem run_succ (s : Regs P) (inp : ℕ → In P) (t : ℕ) :
    run s inp (t + 1) = step (run s inp t) (inp t) := rfl

/-- `ctl_data`. -/
def ctlData (s : Regs P) : BitVec P.dataWidth := ofBits (fun b =>
  if h : b / P.axiDataWidth < P.size then
    (s.words ⟨b / P.axiDataWidth, h⟩).getLsbD (b % P.axiDataWidth)
  else false) P.dataWidth

/-! ## Specification -/

/-- The run starts with a reset. -/
abbrev FromReset (inp : ℕ → In P) : Prop := Clocked.ResetFirst fun t => !(inp t).aresetn

/-- An address is transferred. -/
def awTransfer (inp : ℕ → In P) (t : ℕ) : Bool := (inp t).awvalid && (inp t).intWvalidWire

/-- Data is transferred. -/
def wTransfer (inp : ℕ → In P) (t : ℕ) : Bool := (inp t).wvalid && (inp t).intWvalidWire

/-- The two channels of a write carry a sequence each, with any delays. -/
structure Writes (inp : ℕ → In P) (addr : ℕ → P.Addr) (beat : ℕ → P.Word × P.Strobe) : Prop where
  aw : Clocked.Presents (awTransfer inp) (fun t => (inp t).awaddr) 1 addr
  w : Clocked.Presents (wTransfer inp) (fun t => ((inp t).wdata, (inp t).wstrb)) 1 beat

/-- The bytes that the strobe selects come from the data. -/
def merge (data : P.Word) (strobe : P.Strobe) (old : P.Word) : P.Word :=
  ofBits (fun k => if strobe.getLsbD (k / 8) then data.getLsbD k else old.getLsbD k) P.axiDataWidth

/-- A write to the word of an address, if there is one. -/
def store (words : Fin P.size → P.Word) (w : P.Addr × P.Word × P.Strobe) : Fin P.size → P.Word :=
  fun j => if P.select w.1 = j then merge w.2.1 w.2.2 (words j) else words j

/-- The words after the first `n` addresses, each with the data of its number. -/
def stored (addr : ℕ → P.Addr) (beat : ℕ → P.Word × P.Strobe) (n : ℕ) : Fin P.size → P.Word :=
  ((List.range n).map fun k => (addr k, beat k)).foldl store fun _ => 0

/-- Each write and each read that is taken has one answer, in the order of the
requests, and an answer stays as it is until it is taken. A read finds the words
after the writes that were taken before it. -/
structure Answered (s : Regs P) (inp : ℕ → In P) (addr : ℕ → P.Addr)
    (beat : ℕ → P.Word × P.Strobe) : Prop where
  writes : ∀ T, 1 ≤ T →
    Clocked.count (fun t => (run s inp t).intBvalidReg && (inp t).bready) 1 T +
      (run s inp T).intBvalidReg.toNat = Clocked.count (awTransfer inp) 1 T
  reads : ∀ T, 1 ≤ T →
    Clocked.Responder.answers (fun t => (inp t).rready) (fun t => (run s inp t).read.intRvalidReg)
        (fun t => (run s inp t).read.intRdataReg) 1 T =
      Clocked.during (fun t => (inp t).arvalid)
        (fun t => dataMux (stored addr beat (Clocked.count (awTransfer inp) 1 t)) (inp t)) 1 T
  bHeld : ∀ t, 1 ≤ t → (run s inp t).intBvalidReg = true → (inp t).bready = false →
    (run s inp (t + 1)).intBvalidReg = true
  rHeld : ∀ t, 1 ≤ t → (run s inp t).read.intRvalidReg = true → (inp t).rready = false →
    (run s inp (t + 1)).read = (run s inp t).read

/-- No address is presented while an answer of its channel waits. -/
structure Patient (s : Regs P) (inp : ℕ → In P) : Prop where
  writes : Clocked.Spaced (awTransfer inp) (fun t => (run s inp t).intBvalidReg) 1
  reads : Clocked.Spaced (fun t => (inp t).arvalid) (fun t => (run s inp t).read.intRvalidReg) 1

/-! ## One cycle -/

section Cycle

variable {s : Regs P} {i : In P}

/-- A write changes the bytes of its strobe in its word. -/
theorem words_step (hreset : i.aresetn = true) :
    (step s i).words =
      if i.intWvalidWire then store s.words (i.awaddr, i.wdata, i.wstrb) else s.words := by
  funext j
  refine BitVec.eq_of_getLsbD_eq fun k hk => ?_
  have hce : i.intCeWire j = (i.intWvalidWire && decide (P.select i.awaddr = j)) := rfl
  simp only [step, getLsbD_ofBits, hk, decide_true, Bool.true_and, fdre, hreset, Bool.not_true,
    Bool.false_eq_true, if_false]
  by_cases hwrite : i.intWvalidWire = true
  · rw [if_pos hwrite, store]
    by_cases hselect : P.select i.awaddr = j
    · rw [if_pos hselect, merge, getLsbD_ofBits, decide_eq_true hk, Bool.true_and, hce]
      simp [hwrite, hselect]
    · simp [hce, hselect]
  · simp [hce, hwrite]

theorem stored_succ (addr : ℕ → P.Addr) (beat : ℕ → P.Word × P.Strobe) (n : ℕ) :
    stored addr beat (n + 1) = store (stored addr beat n) (addr n, beat n) := by
  rw [stored, stored, List.range_succ, List.map_append, List.foldl_append, List.map_singleton,
    List.foldl_cons, List.foldl_nil]

/-- A full strobe takes the whole data. -/
theorem merge_allOnes (data old : P.Word) : merge data (BitVec.allOnes _) old = data := by
  refine BitVec.eq_of_getLsbD_eq fun k hk => ?_
  have hbyte : k / 8 < P.axiDataWidth / 8 := by
    have hdvd := Nat.div_mul_cancel P.eight_dvd
    omega
  rw [merge, getLsbD_ofBits, BitVec.getLsbD_allOnes, decide_eq_true hk, decide_eq_true hbyte,
    Bool.true_and, if_pos rfl]

theorem words_step_of_reset (hreset : i.aresetn = false) : (step s i).words = fun _ => 0 := by
  funext j
  refine BitVec.eq_of_getLsbD_eq fun k hk => ?_
  simp [step, fdre, hreset]

theorem intBvalidReg_step (hreset : i.aresetn = true) :
    (step s i).intBvalidReg =
      (!(s.intBvalidReg && i.bready) && (i.intWvalidWire || s.intBvalidReg)) := by
  simp only [step, hreset, Bool.not_true, Bool.false_eq_true, if_false, intBvalidNext]
  cases i.bready <;> cases s.intBvalidReg <;> cases i.intWvalidWire <;> rfl

end Cycle

/-- The bits of a word in `ctl_data`. -/
theorem extractLsb'_ctlData (s : Regs P) (j : Fin P.size) :
    (ctlData s).extractLsb' (P.axiDataWidth * j) P.axiDataWidth = s.words j := by
  refine BitVec.eq_of_getLsbD_eq fun k hk => ?_
  have hpos := P.axiDataWidth_pos
  have hdiv : (P.axiDataWidth * j + k) / P.axiDataWidth = j := by
    rw [Nat.mul_add_div hpos, Nat.div_eq_of_lt hk, Nat.add_zero]
  have hmod : (P.axiDataWidth * j + k) % P.axiDataWidth = k := by
    rw [Nat.mul_add_mod, Nat.mod_eq_of_lt hk]
  have hlt : P.axiDataWidth * j + k < P.dataWidth := by
    have hj : P.axiDataWidth * (j + 1) ≤ P.axiDataWidth * P.size := Nat.mul_le_mul_left _ j.isLt
    have hsize : P.axiDataWidth * P.size ≤ P.dataWidth := Nat.mul_div_le _ _
    rw [Nat.mul_succ] at hj
    omega
  rw [BitVec.getLsbD_extractLsb', decide_eq_true hk, Bool.true_and, ctlData, getLsbD_ofBits,
    decide_eq_true hlt, Bool.true_and]
  simp only [hdiv, hmod, j.isLt, dif_pos]

/-! ## Runs -/

section Run

variable {s : Regs P} {inp : ℕ → In P} {addr : ℕ → P.Addr} {beat : ℕ → P.Word × P.Strobe} {t : ℕ}

theorem awTransfer_eq (inp : ℕ → In P) (t : ℕ) : awTransfer inp t = (inp t).intWvalidWire := by
  unfold awTransfer In.intWvalidWire
  cases (inp t).awvalid <;> rfl

/-- An address and its data are transferred in one cycle. -/
theorem wTransfer_eq (inp : ℕ → In P) : wTransfer inp = awTransfer inp := by
  funext t
  unfold wTransfer awTransfer In.intWvalidWire
  cases (inp t).awvalid <;> cases (inp t).wvalid <;> rfl

theorem FromReset.aresetn (h : FromReset inp) (ht : 1 ≤ t) : (inp t).aresetn = true := h.high ht

theorem FromReset.words_one (h : FromReset inp) : (run s inp 1).words = fun _ => 0 := by
  have hzero : (!(inp 0).aresetn) = true := h.rst_zero
  rw [Bool.not_eq_true'] at hzero
  exact words_step_of_reset hzero

/-- The words are those of the writes before, whichever channel each of them has
waited for. -/
theorem words_eq (h : FromReset inp) (hwrites : Writes inp addr beat) (ht : 1 ≤ t) :
    (run s inp t).words = stored addr beat (Clocked.count (awTransfer inp) 1 t) := by
  induction t, ht using Nat.le_induction with
  | base => rw [Clocked.count_self, h.words_one]; rfl
  | succ t ht ih =>
    rw [run_succ, words_step (h.aresetn ht), Clocked.count_succ _ ht, ← awTransfer_eq, ih]
    cases hwrite : awTransfer inp t with
    | false => rfl
    | true =>
      have haddr := hwrites.aw t ht hwrite
      have hbeat := hwrites.w t ht (by rw [wTransfer_eq, hwrite])
      rw [wTransfer_eq] at hbeat
      rw [if_pos rfl, Bool.toNat_true, stored_succ, ← haddr, ← hbeat]

/-- The responses to writes. -/
theorem FromReset.bResponder (h : FromReset inp) :
    Clocked.Responder (awTransfer inp) (fun t => (inp t).bready)
      (fun t => (run s inp t).intBvalidReg) 1 where
  empty := by
    have hzero : (!(inp 0).aresetn) = true := h.rst_zero
    show (step s (inp 0)).intBvalidReg = false
    rw [step, if_pos hzero]
  next t ht := by
    rw [run_succ, intBvalidReg_step (h.aresetn ht), awTransfer_eq]

theorem FromReset.read_succ (h : FromReset inp) (ht : 1 ≤ t) :
    (run s inp (t + 1)).read = (run s inp t).read.step true (inp t).arvalid (inp t).rready
      (dataMux (run s inp t).words (inp t)) := by
  rw [run_succ, step, h.aresetn ht]

/-- The answers to reads. -/
theorem FromReset.rResponder (h : FromReset inp) :
    Clocked.Responder (fun t => (inp t).arvalid) (fun t => (inp t).rready)
      (fun t => (run s inp t).read.intRvalidReg) 1 := by
  refine Read.responder ?_ fun t ht => h.read_succ ht
  have hzero : (!(inp 0).aresetn) = true := h.rst_zero
  show (s.read.step (inp 0).aresetn _ _ _).intRvalidReg = false
  rw [Read.step, if_pos hzero]

theorem FromReset.registers (h : FromReset inp) (hwrites : Writes inp addr beat) :
    Clocked.Registers (fun t => (inp t).arvalid)
      (fun t => dataMux (stored addr beat (Clocked.count (awTransfer inp) 1 t)) (inp t))
      (fun t => (run s inp t).read.intRdataReg) 1 := by
  refine @Read.registers _ _ _ (fun t => (inp t).rready) _ _ fun t ht => ?_
  rw [← words_eq h hwrites ht]
  exact h.read_succ ht

end Run

/-- Two words of 32 bits. -/
def twoWords : Params where
  dataWidth := 64
  axiDataWidth := 32
  axiAddrWidth := 16
  axiDataWidth_pos := by decide
  eight_dvd := by decide
  le_dataWidth := by decide
  room := by simp [addrLsb, selectWidth, RegisterMap.clogb2]

/-- After the reset an address, in the next cycle its data, and then a read. -/
def lateData (t : ℕ) : In twoWords where
  aresetn := t != 0
  awaddr := 4
  awvalid := t == 1 || t == 2
  wdata := 7
  wstrb := 15
  wvalid := t == 2
  bready := true
  araddr := 4
  arvalid := t == 4
  rready := true
  unknown := 0

def zeros (P : Params) : Regs P := ⟨fun _ => 0, false, ⟨false, 0⟩⟩

end AxiCtlRegister

/-! ## The status registers -/

namespace AxiStsRegister

open AxiRegister

/-- The inputs of a cycle that the outputs depend on: a write is never taken. -/
structure In (P : Params) where
  aresetn : Bool
  stsData : BitVec P.dataWidth
  araddr : P.Addr
  arvalid : Bool
  rready : Bool
  unknown : P.Word

variable {P : Params}

/-- `int_data_mux[..]` at the address that is read. -/
def dataMux (i : In P) : P.Word :=
  if P.select i.araddr < P.size then
    i.stsData.extractLsb' (P.select i.araddr * P.axiDataWidth) P.axiDataWidth
  else i.unknown

/-- One rising edge of `aclk`. -/
def step (s : Read P.axiDataWidth) (i : In P) : Read P.axiDataWidth :=
  s.step i.aresetn i.arvalid i.rready (dataMux i)

/-- The state in each cycle of a run. -/
def run (s : Read P.axiDataWidth) (inp : ℕ → In P) : ℕ → Read P.axiDataWidth :=
  Clocked.run step s inp

/-! ## Runs -/

/-- The run starts with a reset. -/
abbrev FromReset (inp : ℕ → In P) : Prop := Clocked.ResetFirst fun t => !(inp t).aresetn

section Run

variable {s : Read P.axiDataWidth} {inp : ℕ → In P} {t : ℕ}

theorem FromReset.run_succ (h : FromReset inp) (ht : 1 ≤ t) :
    run s inp (t + 1) =
      (run s inp t).step true (inp t).arvalid (inp t).rready (dataMux (inp t)) := by
  have hreset : (inp t).aresetn = true := h.high ht
  show step (run s inp t) (inp t) = _
  rw [step, hreset]

/-- The answers to reads. -/
theorem FromReset.responder (h : FromReset inp) :
    Clocked.Responder (fun t => (inp t).arvalid) (fun t => (inp t).rready)
      (fun t => (run s inp t).intRvalidReg) 1 := by
  refine Read.responder ?_ fun t ht => h.run_succ ht
  have hzero : (!(inp 0).aresetn) = true := h.rst_zero
  show (s.step (inp 0).aresetn _ _ _).intRvalidReg = false
  rw [Read.step, if_pos hzero]

theorem FromReset.registers (h : FromReset inp) :
    Clocked.Registers (fun t => (inp t).arvalid) (fun t => dataMux (inp t))
      (fun t => (run s inp t).intRdataReg) 1 :=
  @Read.registers _ _ _ (fun t => (inp t).rready) _ _ fun _ ht => h.run_succ ht

end Run

end AxiStsRegister
