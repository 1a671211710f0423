-- SUMMARY: The register blocks of a configuration as they are read and written by name: what each pin of a control block carries, and what a read of a name returns.
import FpgaAcoustic.Rtl.AxiRegister

/-!
# Access by name

A driver names a register, the header turns the name into an offset, the bus
carries the offset to the block, and the block drives or samples the pin of the
name. Seen from both ends this is a table of values by name.
-/

namespace RegisterMap

open AxiRegister (Params)

/-! ## The instance of a block -/

theorem clogb2_le {value k : ℕ} (h : value < 2 ^ k) : clogb2 value ≤ k := by
  induction k generalizing value with
  | zero =>
    obtain rfl : value = 0 := by omega
    rw [clogb2, dif_pos rfl]
  | succ k ih =>
    unfold clogb2
    split
    · exact Nat.zero_le _
    · have hhalf : value >>> 1 < 2 ^ k := by
        rw [Nat.shiftRight_one]
        omega
      exact Nat.succ_le_succ (ih hhalf)

theorem room {words : ℕ} (hle : words ≤ 2 ^ 14) :
    AxiRegister.addrLsb 32 + AxiRegister.selectWidth (words * 32 / 32) ≤ 16 := by
  have hlsb : AxiRegister.addrLsb 32 = 2 := by simp [AxiRegister.addrLsb, clogb2]
  have hselect : AxiRegister.selectWidth words ≤ 14 := by
    unfold AxiRegister.selectWidth
    split
    · exact clogb2_le (by omega)
    · decide
  rw [hlsb, Nat.mul_div_cancel _ (by decide)]
  omega

theorem axiDataWidth_pos : 0 < 32 := by decide

theorem eight_dvd_axiDataWidth : 8 ∣ 32 := by decide

/-- The register module that is added for a block. -/
def Block.params (b : Block) (hpos : 0 < b.words) (hle : b.words ≤ 2 ^ 14) : Params where
  dataWidth := b.words * 32
  axiDataWidth := 32
  axiAddrWidth := 16
  axiDataWidth_pos := axiDataWidth_pos
  eight_dvd := eight_dvd_axiDataWidth
  le_dataWidth := Nat.le_mul_of_pos_left 32 hpos
  room := room hle

section Instance

variable {b : Block} {hpos : 0 < b.words} {hle : b.words ≤ 2 ^ 14}

theorem Block.size_params : (b.params hpos hle).size = b.words :=
  Nat.mul_div_cancel b.words (by decide)

theorem Block.select_params (addr : BitVec 16) : (b.params hpos hle).select addr = b.word addr := by
  have hlsb : AxiRegister.addrLsb 32 = 2 := by simp [AxiRegister.addrLsb, clogb2]
  have hwidth : AxiRegister.selectWidth (b.params hpos hle).size = b.width := by
    rw [Block.size_params]
    rfl
  refine (Params.select_eq (b.params hpos hle) addr).trans ?_
  rw [hwidth]
  show addr.toNat / 2 ^ AxiRegister.addrLsb 32 % 2 ^ b.width = b.word addr
  rw [hlsb]
  rfl

end Instance

/-! ## Specification -/

/-- The values by name after the first `n` writes. -/
def table (writes : ℕ → Str × BitVec 32) (n : ℕ) : Str → BitVec 32 :=
  ((List.range n).map writes).foldl (fun values w => Function.update values w.1 w.2) fun _ => 0

/-- Each name has the offset that goes over the bus. -/
def Named (names : Names) (f : Family) (name : Str) (addr : BitVec 16) : Prop :=
  (name, addr.toNat) ∈ offsets names f

/-- The lists of registers that a driver writes. -/
def Family.IsControl (f : Family) : Prop := f = .control ∨ f = .psControl

section Control

open AxiCtlRegister (In Regs Writes FromReset Patient run ctlData awTransfer)

variable {P : Params}

/-- Whole words go over the bus, each to the offset of its name. -/
structure WritesNames (names : Names) (f : Family) (b : Block) (hpos : 0 < b.words)
    (hle : b.words ≤ 2 ^ 14) (inp : ℕ → In (b.params hpos hle)) (writes : ℕ → Str × BitVec 32) :
    Prop where
  bus : ∃ addr : ℕ → BitVec 16, Writes inp addr (fun k => ((writes k).2, BitVec.allOnes _)) ∧
    ∀ k, Named names f (writes k).1 (addr k)

/-- The pins carry the values of their names, and so do the answers to reads. -/
structure HoldsTable (names : Names) (f : Family) (b : Block) (hpos : 0 < b.words)
    (hle : b.words ≤ 2 ^ 14) (s : Regs (b.params hpos hle)) (inp : ℕ → In (b.params hpos hle))
    (writes : ℕ → Str × BitVec 32) : Prop where
  wired : ∀ name ∈ names f, ∃ bit, (name, bit) ∈ b.wires
  pin : ∀ t, 1 ≤ t → ∀ name bit, (name, bit) ∈ b.wires →
    (ctlData (run s inp t)).extractLsb' bit 32 =
      table writes (Clocked.count (awTransfer inp) 1 t) name
  answers : Patient s inp → ∀ asked : ℕ → Str,
    (∀ t, 1 ≤ t → (inp t).arvalid = true → Named names f (asked t) (inp t).araddr) →
    ∀ T, 1 ≤ T → Clocked.Responder.answers (fun t => (inp t).rready)
        (fun t => (run s inp t).read.intRvalidReg) (fun t => (run s inp t).read.intRdataReg) 1 T =
      Clocked.during (fun t => (inp t).arvalid)
        (fun t => table writes (Clocked.count (awTransfer inp) 1 t) (asked t)) 1 T

end Control

section Status

open AxiStsRegister (In FromReset run)

/-- In each cycle the pins have these values. -/
def Samples (b : Block) (hpos : 0 < b.words) (hle : b.words ≤ 2 ^ 14)
    (inp : ℕ → In (b.params hpos hle)) (pins : ℕ → Str → BitVec 32) : Prop :=
  ∀ t name bit, (name, bit) ∈ b.wires → (inp t).stsData.extractLsb' bit 32 = pins t name

end Status

/-! ## Offsets -/

section Offsets

variable {names : Names} {f : Family} {name : Str} {addr : BitVec 16}

theorem Family.IsControl.firstWord (hf : f.IsControl) : firstWord f = 0 := by
  rcases hf with rfl | rfl <;> rfl

theorem Family.IsControl.hidden (hf : f.IsControl) : hidden f = 0 := by
  rcases hf with rfl | rfl <;> rfl

theorem size_eq (f : Family) : size names f = (names f).length + firstWord f := by
  rw [firstWord_eq]
  rfl

/-- The offset of a name selects its word. -/
theorem Named.word (h : Named names f name addr) (hpos : 0 < size names f)
    (hle : size names f ≤ 2 ^ 14) :
    ∃ k, (names f)[k]? = some name ∧ firstWord f + k < size names f ∧
      (block names f).word addr = firstWord f + k := by
  obtain ⟨k, hk, hoffset⟩ := mem_offsets.mp h
  obtain ⟨hlt, -⟩ := List.getElem?_eq_some_iff.mp hk
  have hsize : firstWord f + k < size names f := by
    rw [size_eq]
    omega
  refine ⟨k, hk, hsize, ?_⟩
  have haddr : addr = BitVec.ofNat 16 (4 * (firstWord f + k)) := by
    rw [← hoffset, BitVec.ofNat_toNat, BitVec.setWidth_eq]
  rw [haddr, block_of_pos hpos]
  exact Block.word_ofNat (b := wired (nameAt names f) (RegisterMap.hidden f) (size names f)) hsize hle

theorem mem_wires {bit : ℕ} (hpos : 0 < size names f) :
    (name, bit) ∈ (block names f).wires ↔
      ∃ i, hidden f ≤ i ∧ i < size names f ∧ nameAt names f i = name ∧ bit = 32 * i := by
  rw [block_of_pos hpos, wired]
  simp only [List.mem_map, List.mem_range'_1, Prod.mk.injEq]
  constructor
  · rintro ⟨i, ⟨hle, hlt⟩, rfl, rfl⟩
    exact ⟨i, hle, by omega, rfl, rfl⟩
  · rintro ⟨i, hle, hlt, rfl, rfl⟩
    exact ⟨i, ⟨hle, by omega⟩, rfl, rfl⟩

end Offsets

/-! ## Control blocks -/

section Control

open AxiCtlRegister (In Regs Writes FromReset Patient run ctlData awTransfer stored)

variable {names : Names} {f : Family} {hpos : 0 < (block names f).words}
  {hle : (block names f).words ≤ 2 ^ 14}

theorem table_succ (writes : ℕ → Str × BitVec 32) (n : ℕ) :
    table writes (n + 1) = Function.update (table writes n) (writes n).1 (writes n).2 := by
  rw [table, table, List.range_succ, List.map_append, List.foldl_append, List.map_singleton,
    List.foldl_cons, List.foldl_nil]

theorem words_block (h : 0 < (block names f).words) : (block names f).words = size names f ∧
    0 < size names f := by
  have hsize : 0 < size names f := by
    by_contra hzero
    cases f with
    | control => exact hzero h
    | status => exact hzero h
    | psControl =>
      rw [block, if_neg hzero] at h
      exact absurd h (by decide)
    | psStatus =>
      rw [block, if_neg hzero] at h
      exact absurd h (by decide)
  refine ⟨?_, hsize⟩
  rw [block_of_pos hsize]
  rfl

/-- Two names of a list without repetitions have two places. -/
theorem nameAt_eq_iff (hf : f.IsControl) (hnodup : (names f).Nodup) {k j : ℕ} {name : Str}
    (hk : (names f)[k]? = some name) (hj : j < size names f) : nameAt names f j = name ↔ k = j := by
  rw [size_eq, hf.firstWord, Nat.add_zero] at hj
  have hget : (names f)[j]? = some (nameAt names f j) := by
    have hname := @nameAt_firstWord names f _ j (List.getElem?_eq_getElem hj)
    rw [hf.firstWord, Nat.zero_add] at hname
    rw [hname, List.getElem?_eq_getElem hj]
  constructor
  · intro hname
    rw [hname, ← hk] at hget
    obtain ⟨hlt, -⟩ := List.getElem?_eq_some_iff.mp hk
    exact (List.getElem?_inj hlt hnodup).mp hget.symm
  · rintro rfl
    exact Option.some.inj (hget.symm.trans hk)

/-- The words are the table, at the places of the names. -/
theorem stored_eq (hf : f.IsControl) (hnodup : (names f).Nodup) {addr : ℕ → BitVec 16}
    {writes : ℕ → Str × BitVec 32} (hnamed : ∀ k, Named names f (writes k).1 (addr k)) (n : ℕ)
    (j : Fin ((block names f).params hpos hle).size) :
    @stored ((block names f).params hpos hle) addr (fun k => ((writes k).2, BitVec.allOnes _)) n j =
      table writes n (nameAt names f j) := by
  obtain ⟨hwords, hsize⟩ := words_block hpos
  have hj : (j : ℕ) < size names f := by
    rw [← hwords]
    exact j.isLt.trans_eq Block.size_params
  induction n with
  | zero => rfl
  | succ n ih =>
    obtain ⟨k, hk, -, hword⟩ := (hnamed n).word hsize (hwords ▸ hle)
    rw [hf.firstWord, Nat.zero_add] at hword
    refine (congrFun (AxiCtlRegister.stored_succ _ _ n) j).trans ?_
    rw [table_succ, AxiCtlRegister.store, AxiCtlRegister.merge_allOnes, Block.select_params, hword, ih]
    by_cases hkj : k = j
    · refine (if_pos hkj).trans ?_
      rw [(nameAt_eq_iff hf hnodup hk hj).mpr hkj, Function.update_self]
    · refine (if_neg hkj).trans ?_
      rw [Function.update_of_ne fun hname => hkj ((nameAt_eq_iff hf hnodup hk hj).mp hname)]

variable {s : Regs ((block names f).params hpos hle)} {inp : ℕ → In ((block names f).params hpos hle)}
  {writes : ℕ → Str × BitVec 32}

/-- A driver that writes and reads by name finds a table of values by name, and
so do the pins. -/
theorem control_holds (hf : f.IsControl) (hnodup : (names f).Nodup) (h : FromReset inp)
    (hwrites : WritesNames names f (block names f) hpos hle inp writes) :
    HoldsTable names f (block names f) hpos hle s inp writes := by
  obtain ⟨hwords, hsize⟩ := words_block hpos
  obtain ⟨addr, hbus, hnamed⟩ := hwrites.bus
  have hword : ∀ t, 1 ≤ t → ∀ j, (run s inp t).words j =
      table writes (Clocked.count (awTransfer inp) 1 t) (nameAt names f j) := by
    intro t ht j
    rw [AxiCtlRegister.words_eq h hbus ht]
    exact stored_eq hf hnodup hnamed _ j
  refine ⟨fun name hname => ?_, fun t ht name bit hwire => ?_, fun hpatient asked hasked T hT => ?_⟩
  · obtain ⟨k, hk⟩ := List.mem_iff_getElem?.mp hname
    obtain ⟨hlt, -⟩ := List.getElem?_eq_some_iff.mp hk
    have hk' : k < size names f := by
      rw [size_eq, hf.firstWord]
      exact hlt
    refine ⟨32 * k, (mem_wires hsize).mpr ⟨k, ?_, hk', ?_, rfl⟩⟩
    · rw [hf.hidden]
      exact Nat.zero_le k
    · exact (nameAt_eq_iff hf hnodup hk hk').mpr rfl
  · obtain ⟨i, -, hi, rfl, rfl⟩ := (mem_wires hsize).mp hwire
    have hfin : i < ((block names f).params hpos hle).size := by
      rw [Block.size_params, hwords]
      exact hi
    exact (AxiCtlRegister.extractLsb'_ctlData (run s inp t) ⟨i, hfin⟩).trans (hword t ht _)
  · rw [(h.rResponder.answers_iff (h.registers hbus)).mpr hpatient.reads T hT]
    refine Clocked.during_congr fun t ht _ hread => ?_
    obtain ⟨k, hk, hlt, hword⟩ := (hasked t ht hread).word hsize (hwords ▸ hle)
    rw [hf.firstWord, Nat.zero_add] at hword hlt
    have hselect : ((block names f).params hpos hle).select (inp t).araddr = k :=
      (Block.select_params _).trans hword
    have hfin : ((block names f).params hpos hle).select (inp t).araddr <
        ((block names f).params hpos hle).size := by
      rw [Block.size_params, hselect, hwords]
      exact hlt
    rw [AxiCtlRegister.dataMux, dif_pos hfin]
    refine (stored_eq hf hnodup hnamed _ _).trans ?_
    rw [Fin.val_mk, hselect, (nameAt_eq_iff hf hnodup hk hlt).mpr rfl]

/-- The block of the instrument. -/
def sesentaControl : Params :=
  (block (RegisterMap.names sesenta) .control).params (by decide) (by decide)

/-- A direction is selected, and read back later. -/
def selectThree (t : ℕ) : In sesentaControl where
  aresetn := t != 0
  awaddr := 16#16
  awvalid := t == 1
  wdata := 3#32
  wstrb := 15#4
  wvalid := t == 1
  bready := true
  araddr := 16#16
  arvalid := t == 2
  rready := true
  unknown := 0#32

end Control

/-! ## Status blocks -/

section Status

open AxiStsRegister (In FromReset run)

variable {names : Names}

/-- A read of a name returns the value that its pin had when the read was taken,
and each read is answered once and in order, just when no read is taken while an
answer waits. -/
theorem status_answers_iff {config : Config} {blocks : Family → Block}
    (hgenerate : generate config = some (names, blocks)) (hpos : 0 < (blocks .status).words)
    (hle : (blocks .status).words ≤ 2 ^ 14) (s : AxiRegister.Read 32)
    {inp : ℕ → In ((blocks .status).params hpos hle)} {pins : ℕ → Str → BitVec 32}
    {asked : ℕ → Str} (h : FromReset inp) (hpins : Samples (blocks .status) hpos hle inp pins)
    (hasked : ∀ t, 1 ≤ t → (inp t).arvalid = true → Named names .status (asked t) (inp t).araddr) :
    (∀ T, 1 ≤ T → Clocked.Responder.answers (fun t => (inp t).rready)
        (fun t => (run s inp t).intRvalidReg) (fun t => (run s inp t).intRdataReg) 1 T =
      Clocked.during (fun t => (inp t).arvalid) (fun t => pins t (asked t)) 1 T) ↔
    Clocked.Spaced (fun t => (inp t).arvalid) (fun t => (run s inp t).intRvalidReg) 1 := by
  obtain rfl := generate_eq hgenerate
  obtain ⟨hwords, hsize⟩ := words_block hpos
  refine Iff.trans ?_ (h.responder.answers_iff (h.registers (s := s)))
  refine forall₂_congr fun T hT => Eq.congr_right (Clocked.during_congr fun t ht _ hread => ?_)
  obtain ⟨k, hk, hlt, hword⟩ := (hasked t ht hread).word hsize (hwords ▸ hle)
  have hselect : ((block names .status).params hpos hle).select (inp t).araddr =
      firstWord .status + k := (Block.select_params _).trans hword
  have hfin : ((block names .status).params hpos hle).select (inp t).araddr <
      ((block names .status).params hpos hle).size := by
    rw [Block.size_params, hselect, hwords]
    exact hlt
  have hwire : (asked t, 32 * (firstWord .status + k)) ∈ (block names .status).wires :=
    (mem_wires hsize).mpr
      ⟨_, Nat.le_add_right 2 k, hlt, nameAt_firstWord k hk, rfl⟩
  rw [AxiStsRegister.dataMux, if_pos hfin, hselect, Nat.mul_comm]
  exact (hpins t _ _ hwire).symm

/-- The block of the instrument. -/
def sesentaStatus : Params := (block (RegisterMap.names sesenta) .status).params (by decide) (by decide)

/-- A read of the flag of a capture that has not begun. -/
def readDone (t : ℕ) : In sesentaStatus where
  aresetn := t != 0
  stsData := 0
  araddr := 12#16
  arvalid := t == 1
  rready := true
  unknown := 0#32

theorem readDone_answered :
    Clocked.Responder.answers (fun t => (readDone t).rready)
        (fun t => (run ⟨true, 5#32⟩ readDone t).intRvalidReg)
        (fun t => (run ⟨true, 5#32⟩ readDone t).intRdataReg) 1 3 =
      Clocked.during (fun t => (readDone t).arvalid) (fun _ => 0) 1 3 := by
  refine (@status_answers_iff _ sesenta (block (RegisterMap.names sesenta)) (generate_of_names rfl) _ _
    ⟨true, 5#32⟩ readDone (fun _ _ => 0) (fun _ => "done_capture".toList)
    ⟨rfl, fun t => by simp [readDone]⟩ (fun _ _ _ _ => BitVec.extractLsb'_zero) fun _ _ _ => ?_).mpr
    ?_ 3 (by decide)
  · show ("done_capture".toList, 12) ∈ offsets (RegisterMap.names sesenta) .status
    decide
  · intro t _ hread
    obtain rfl : t = 1 := beq_iff_eq.mp hread
    rfl

end Status

end RegisterMap
