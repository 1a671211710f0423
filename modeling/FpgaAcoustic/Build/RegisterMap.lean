-- SUMMARY: The register map: the names that make.py expands, the offsets of memory.hpp and the block design of ctl_sts.tcl.
import Mathlib.Algebra.GroupWithZero.Nat
import Mathlib.Data.List.Basic
import Mathlib.Data.List.Nodup
import Mathlib.Data.List.Range
import Mathlib.Data.Nat.Log

/-!
# Register map

Three generators number the registers of a configuration, each on its own: the
header gives a name its offset, the tables of `config.tcl` give it an index, and
the block design wires the pin with this name to some bits of a register block.
They meet where the block decodes an address.
-/

namespace RegisterMap

/-! ## The names -/

/-- A `str` of the configuration. -/
abbrev Str := List Char

/-- `find`, with none for `-1`. -/
def find (string : Str) (char : Char) : Option ℕ := string.findIdx? (· == char)

def parseBrackets (string : Str) : Str × Str :=
  match find string '[', find string ']' with
  | some start, some stop => (string.take start, (string.drop (start + 1)).take (stop - (start + 1)))
  | _, _ => (string, ['1'])

/-- `isdigit`, for the characters of a name. -/
def isdigit (string : Str) : Bool := !string.isEmpty && string.all Char.isDigit

def toInt (string : Str) : ℤ :=
  string.foldl (fun n c => 10 * n + ((c.toNat - '0'.toNat : ℕ) : ℤ)) 0

/-- None where the `assert` fails. -/
def readParameters (string : Str) (parameters : Str → Option ℤ) : Option (Str × ℤ) :=
  let (string, parameter) := parseBrackets string
  if isdigit parameter then some (string, toInt parameter)
  else (parameters parameter).map fun parameter => (string, parameter)

/-- The names of one entry. -/
def expand (register : Str) (parameter : ℤ) : List Str :=
  if parameter = 1 then [register]
  else (List.range parameter.toNat).map fun i => register ++ Nat.toDigits 10 i

def buildRegisters (registers : List Str) (parameters : Str → Option ℤ) : Option (List Str) :=
  registers.foldlM (fun newRegisters register => do
    let (register, parameter) ← readParameters register parameters
    pure (newRegisters ++ expand register parameter)) []

/-- The lists of registers of a configuration. -/
inductive Family
  | control
  | psControl
  | status
  | psStatus
  deriving DecidableEq, Repr

structure Config where
  registers : Family → List Str
  parameters : Str → Option ℤ

/-- The expanded names of each list. -/
abbrev Names := Family → List Str

def appendMemoryToConfig (config : Config) : Option Names := do
  let control ← buildRegisters (config.registers .control) config.parameters
  let psControl ← buildRegisters (config.registers .psControl) config.parameters
  let status ← buildRegisters (config.registers .status) config.parameters
  let psStatus ← buildRegisters (config.registers .psStatus) config.parameters
  pure fun
    | .control => control
    | .psControl => psControl
    | .status => status
    | .psStatus => psStatus

/-! ## The header -/

/-- The word of the first offset in `memory.hpp`. -/
def firstWord : Family → ℕ
  | .status => 2
  | .control | .psControl | .psStatus => 0

/-- The constants of `namespace reg`. -/
def offsets (names : Names) (f : Family) : List (Str × ℕ) :=
  (names f).zipIdx.map fun (name, index0) => (name, 4 * (firstWord f + index0))

/-! ## The block design -/

/-- The first index of `sts_register`. -/
def stsStart : Family → ℕ
  | .status => 2
  | .control | .psControl | .psStatus => 0

/-- `ctl_register` and its siblings; an entry that is not set is none. -/
def register (names : Names) (f : Family) (i : ℕ) : Option Str :=
  if i < stsStart f then none else (names f)[i - stsStart f]?

/-- `control_size` and its siblings. -/
def size (names : Names) (f : Family) : ℕ := (names f).length + stsStart f

/-- A register block: its words, and the pins of the hierarchy with the lowest
of the 32 bits that each is wired to. -/
structure Block where
  words : ℕ
  wires : List (Str × ℕ)
  deriving DecidableEq, Repr

def addConfigRegister (regNames : ℕ → Option Str) (numPorts : ℕ) : Option Block := do
  let wires ← (List.range numPorts).mapM fun i => do
    let name ← regNames i
    pure (name, i * 32)
  pure ⟨numPorts, wires⟩

/-- The ports of each `concat_$concat_idx`. -/
def concatPorts (leftPorts : ℕ) : List ℕ :=
  if h : leftPorts = 0 then []
  else
    have : leftPorts - min leftPorts 32 < leftPorts := by omega
    min leftPorts 32 :: concatPorts (leftPorts - min leftPorts 32)

/-- The lowest bit of `sts_data` that `concat_$cidx/In$iidx` gets to, through
the input of `concat_concat` with the width of the whole `concat_$cidx`. -/
def concatInput (ports : List ℕ) (concatNum cidx iidx : ℕ) : Option ℕ := do
  let port ← ports[cidx]?
  if iidx < port ∧ cidx < concatNum then
    pure (((ports.take cidx).map (· * 32)).sum + iidx * 32)
  else none

/-- With or without a DNA. -/
def numHiddenPorts : ℕ := 2

def addStatusRegister (regNames : ℕ → Option Str) (numPorts : ℕ) : Option Block := do
  let wires ← (List.range' numHiddenPorts (numPorts - numHiddenPorts)).mapM fun i => do
    let name ← regNames i
    let bit ← concatInput (concatPorts numPorts) (numPorts / 32 + 1) (i / 32) (i % 32)
    pure (name, bit)
  pure ⟨numPorts, wires⟩

/-- No block is added. -/
def absent : Block := ⟨0, []⟩

/-- A block that is added if it has a size. -/
def addIfAny (add : (ℕ → Option Str) → ℕ → Option Block) (regNames : ℕ → Option Str)
    (size : ℕ) : Option Block :=
  if 0 < size then add regNames size else some absent

def addCtlSts (names : Names) : Option (Family → Block) := do
  let ctl ← addConfigRegister (register names .control) (size names .control)
  let sts ← addStatusRegister (register names .status) (size names .status)
  let psCtl ← addIfAny addConfigRegister (register names .psControl) (size names .psControl)
  let psSts ← addIfAny addStatusRegister (register names .psStatus) (size names .psStatus)
  pure fun
    | .control => ctl
    | .psControl => psCtl
    | .status => sts
    | .psStatus => psSts

/-- What is generated for a configuration: the names, and the blocks. -/
def generate (config : Config) : Option (Names × (Family → Block)) := do
  let names ← appendMemoryToConfig config
  let blocks ← addCtlSts names
  pure (names, blocks)

/-! ## The decoding of an address -/

def clogb2 (value : ℕ) : ℕ :=
  if h : value = 0 then 0
  else
    have : value >>> 1 < value := by
      rw [Nat.shiftRight_one]
      omega
    clogb2 (value >>> 1) + 1

namespace Block

/-- `CTL_WIDTH` and `STS_WIDTH`. -/
def width (b : Block) : ℕ := if b.words > 1 then clogb2 (b.words - 1) else 1

/-- The word that `ADDR_LSB+WIDTH-1:ADDR_LSB` of an address selects. -/
def word (b : Block) (addr : BitVec 16) : ℕ := addr.toNat / 4 % 2 ^ b.width

/-- The pins that are wired to bits of the word. -/
def pins (b : Block) (addr : BitVec 16) : List Str :=
  (b.wires.filter fun (_, bit) =>
    bit < 32 * b.word addr + 32 && 32 * b.word addr < bit + 32).map Prod.fst

end Block

/-- An offset selects a word of the block that is wired to this pin and to no
other. -/
def Block.Reaches (b : Block) (offset : ℕ) (name : Str) : Prop :=
  b.word (BitVec.ofNat 16 offset) < b.words ∧ b.pins (BitVec.ofNat 16 offset) = [name]

/-- Each name of a list has an offset, with which the pin of this name is reached. -/
def Agrees (names : Names) (blocks : Family → Block) (f : Family) : Prop :=
  ∀ name ∈ names f, (∃ offset, (name, offset) ∈ offsets names f) ∧
    ∀ offset, (name, offset) ∈ offsets names f → (blocks f).Reaches offset name

/-! ## Decoding -/

theorem lt_two_pow_clogb2 (value : ℕ) : value < 2 ^ clogb2 value := by
  induction value using Nat.strong_induction_on with
  | _ value ih =>
    unfold clogb2
    split
    · omega
    · have hshift : value >>> 1 = value / 2 := Nat.shiftRight_one value
      have hlt := ih (value >>> 1) (by omega)
      rw [Nat.pow_succ]
      omega

theorem Block.lt_two_pow_width {b : Block} {k : ℕ} (h : k < b.words) : k < 2 ^ b.width := by
  unfold width
  split
  · exact (Nat.le_sub_one_of_lt h).trans_lt (lt_two_pow_clogb2 _)
  · omega

/-- The offset of a word selects the word. -/
theorem Block.word_ofNat {b : Block} {k : ℕ} (h : k < b.words) (hwords : b.words ≤ 2 ^ 14) :
    b.word (BitVec.ofNat 16 (4 * k)) = k := by
  have hdiv : (BitVec.ofNat 16 (4 * k)).toNat / 4 = k := by
    rw [BitVec.toNat_ofNat]
    omega
  rw [word, hdiv]
  exact Nat.mod_eq_of_lt (lt_two_pow_width h)

/-! ## The concatenated inputs -/

theorem concatPorts_of_pos {n : ℕ} (h : n ≠ 0) :
    concatPorts n = min n 32 :: concatPorts (n - min n 32) := by
  rw [concatPorts, dif_neg h]

/-- All inputs before one that is used have 32 ports. -/
theorem concatPorts_spec (c : ℕ) {n : ℕ} (h : 32 * c < n) :
    (concatPorts n)[c]? = some (min (n - 32 * c) 32) ∧
      (((concatPorts n).take c).map (· * 32)).sum = 32 * (32 * c) := by
  induction c generalizing n with
  | zero =>
    rw [concatPorts_of_pos (by omega)]
    exact ⟨rfl, rfl⟩
  | succ c ih =>
    have hmin : min n 32 = 32 := by omega
    obtain ⟨hport, hsum⟩ := @ih (n - 32) (by omega)
    rw [concatPorts_of_pos (by omega), hmin]
    refine ⟨?_, ?_⟩
    · rw [List.getElem?_cons_succ, hport, show n - 32 - 32 * c = n - 32 * (c + 1) by omega]
    · rw [List.take_succ_cons, List.map_cons, List.sum_cons, hsum]
      omega

theorem concatInput_eq {i n : ℕ} (h : i < n) :
    concatInput (concatPorts n) (n / 32 + 1) (i / 32) (i % 32) = some (32 * i) := by
  obtain ⟨hport, hsum⟩ := concatPorts_spec (i / 32) (n := n) (by omega)
  have hinput : i % 32 < min (n - 32 * (i / 32)) 32 ∧ i / 32 < n / 32 + 1 := by omega
  rw [concatInput, hport]
  simp only [Option.bind_eq_bind, Option.bind_some, if_pos hinput, hsum]
  congr 1
  omega

/-! ## The wires of a block -/

section Wires

variable {nameAt : ℕ → Str} {hidden words : ℕ}

theorem mapM_some {α β : Type} {f : α → Option β} {g : α → β} {l : List α}
    (h : ∀ a ∈ l, f a = some (g a)) : l.mapM f = some (l.map g) := by
  induction l with
  | nil => rfl
  | cons a l ih =>
    rw [List.mapM_cons, h a (List.mem_cons_self ..),
      ih fun b hb => h b (List.mem_cons_of_mem a hb)]
    rfl

/-- The block of which each word from `hidden` on is wired to its pin. -/
def wired (nameAt : ℕ → Str) (hidden words : ℕ) : Block :=
  ⟨words, (List.range' hidden (words - hidden)).map fun i => (nameAt i, 32 * i)⟩

theorem addConfigRegister_eq {regNames : ℕ → Option Str}
    (h : ∀ i, i < words → regNames i = some (nameAt i)) :
    addConfigRegister regNames words = some (wired nameAt 0 words) := by
  have hwires : (List.range words).mapM (fun i => do
      let name ← regNames i
      pure (name, i * 32)) = some ((List.range words).map fun i => (nameAt i, 32 * i)) := by
    refine mapM_some fun i hi => ?_
    rw [h i (List.mem_range.mp hi), Nat.mul_comm 32 i]
    rfl
  rw [addConfigRegister, hwires, wired, Nat.sub_zero, ← List.range_eq_range']
  rfl

theorem addStatusRegister_eq {regNames : ℕ → Option Str}
    (h : ∀ i, numHiddenPorts ≤ i → i < words → regNames i = some (nameAt i)) :
    addStatusRegister regNames words = some (wired nameAt numHiddenPorts words) := by
  unfold addStatusRegister
  rw [mapM_some (g := fun i => (nameAt i, 32 * i))]
  · rfl
  · intro i hi
    obtain ⟨hle, hlt⟩ := List.mem_range'_1.mp hi
    rw [h i hle (by omega), concatInput_eq (by omega)]
    rfl

theorem filter_range'_eq {k s n : ℕ} (hs : s ≤ k) (hn : k < s + n) :
    (List.range' s n).filter (fun i => decide (i = k)) = [k] := by
  have hmem : k ∈ List.range' s n := List.mem_range'_1.mpr ⟨hs, hn⟩
  have hcount : (List.range' s n).count k = 1 :=
    List.nodup_iff_count_eq_one.mp List.nodup_range' k hmem
  rw [List.filter_eq, hcount]
  rfl

theorem pins_wired {k : ℕ} (hk : k < words) (hwords : words ≤ 2 ^ 14) :
    (wired nameAt hidden words).pins (BitVec.ofNat 16 (4 * k)) =
      if hidden ≤ k then [nameAt k] else [] := by
  have hword : (wired nameAt hidden words).word (BitVec.ofNat 16 (4 * k)) = k :=
    Block.word_ofNat hk hwords
  have hbits : ((fun x : Str × ℕ => decide (x.2 < 32 * k + 32) && decide (32 * k < x.2 + 32)) ∘
      fun i => (nameAt i, 32 * i)) = fun i => decide (i = k) := by
    funext i
    rw [Function.comp_apply, Bool.eq_iff_iff]
    simp only [Bool.and_eq_true, decide_eq_true_eq]
    omega
  simp only [Block.pins, hword]
  rw [wired, List.filter_map, hbits]
  split
  · rw [filter_range'_eq ‹_› (by omega)]
    rfl
  · rw [List.filter_eq_nil_iff.mpr]
    · rfl
    · intro i hi
      have hle := (List.mem_range'_1.mp hi).1
      simp only [decide_eq_true_eq]
      omega

end Wires

/-! ## The blocks of a configuration -/

section Blocks

variable {names : Names} {f : Family} {i : ℕ}

/-- The name with an index, where there is one. -/
def nameAt (names : Names) (f : Family) (i : ℕ) : Str := (register names f i).getD []

theorem register_eq (hle : stsStart f ≤ i) (hlt : i < size names f) :
    register names f i = some (nameAt names f i) := by
  have hindex : i - stsStart f < (names f).length := by
    unfold size at hlt
    omega
  have hsome : register names f i = some (names f)[i - stsStart f] := by
    rw [register, if_neg (by omega), List.getElem?_eq_getElem hindex]
  rw [nameAt, hsome]
  rfl

/-- The words of which no pin is wired. -/
def hidden : Family → ℕ
  | .control | .psControl => 0
  | .status | .psStatus => numHiddenPorts

/-- The block of a list. -/
def block (names : Names) (f : Family) : Block :=
  match f with
  | .control | .status => wired (nameAt names f) (hidden f) (size names f)
  | .psControl | .psStatus =>
    if 0 < size names f then wired (nameAt names f) (hidden f) (size names f) else absent

theorem addCtlSts_eq (names : Names) : addCtlSts names = some (block names) := by
  have hctl : ∀ f, stsStart f = 0 → addConfigRegister (register names f) (size names f) =
      some (wired (nameAt names f) 0 (size names f)) := fun f hstart =>
    addConfigRegister_eq fun i hi => register_eq (by omega) hi
  have hsts : ∀ f, stsStart f ≤ numHiddenPorts →
      addStatusRegister (register names f) (size names f) =
        some (wired (nameAt names f) numHiddenPorts (size names f)) := fun f hstart =>
    addStatusRegister_eq fun i hle hi => register_eq (hstart.trans hle) hi
  have hpsCtl : addIfAny addConfigRegister (register names .psControl) (size names .psControl) =
      some (block names .psControl) := by
    unfold addIfAny block
    split
    · exact hctl .psControl rfl
    · rfl
  have hpsSts : addIfAny addStatusRegister (register names .psStatus) (size names .psStatus) =
      some (block names .psStatus) := by
    unfold addIfAny block
    split
    · exact hsts .psStatus (Nat.zero_le 2)
    · rfl
  rw [addCtlSts, hctl .control rfl, hsts .status (le_refl 2), hpsCtl, hpsSts]
  refine congrArg some (funext fun f => ?_)
  cases f <;> rfl

theorem block_of_pos (h : 0 < size names f) :
    block names f = wired (nameAt names f) (hidden f) (size names f) := by
  cases f with
  | control => rfl
  | status => rfl
  | psControl => exact if_pos h
  | psStatus => exact if_pos h

theorem mem_offsets {name : Str} {offset : ℕ} :
    (name, offset) ∈ offsets names f ↔
      ∃ k, (names f)[k]? = some name ∧ offset = 4 * (firstWord f + k) := by
  simp only [offsets, List.mem_map, Prod.mk.injEq, Prod.exists, List.mem_zipIdx_iff_getElem?]
  constructor
  · rintro ⟨_, k, hk, rfl, rfl⟩
    exact ⟨k, hk, rfl⟩
  · rintro ⟨k, hk, rfl⟩
    exact ⟨name, k, hk, rfl, rfl⟩

/-- The header and the tables start at the same word. -/
theorem firstWord_eq (f : Family) : firstWord f = stsStart f := by
  cases f <;> rfl

theorem nameAt_firstWord {name : Str} (k : ℕ) (h : (names f)[k]? = some name) :
    nameAt names f (firstWord f + k) = name := by
  rw [firstWord_eq, nameAt, register, if_neg (by omega), Nat.add_sub_cancel_left, h]
  rfl

/-- A register is reached just when its word is not hidden. -/
theorem reaches_iff {name : Str} {k : ℕ} (h : (names f)[k]? = some name)
    (hlen : (names f).length ≤ 2 ^ 14 - 2) :
    (block names f).Reaches (4 * (firstWord f + k)) name ↔ hidden f ≤ firstWord f + k := by
  obtain ⟨hk, -⟩ := List.getElem?_eq_some_iff.mp h
  have hsize : size names f = (names f).length + firstWord f := by rw [firstWord_eq]; rfl
  have hstart : firstWord f ≤ 2 := by cases f <;> decide
  have hlt : firstWord f + k < size names f := by omega
  have hwords : size names f ≤ 2 ^ 14 := by omega
  rw [block_of_pos (by omega), Block.Reaches, pins_wired hlt hwords,
    Block.word_ofNat (b := wired (nameAt names f) (hidden f) (size names f)) hlt hwords,
    nameAt_firstWord k h]
  constructor
  · rintro ⟨-, hpins⟩
    by_contra hle
    rw [if_neg hle] at hpins
    exact absurd hpins (List.cons_ne_nil name []).symm
  · intro hle
    exact ⟨hlt, if_pos hle⟩

/-- The lists agree, but the status registers of the processing system do only
where there are none: their first two words are hidden as if for a DNA. -/
theorem agrees_iff (hlen : (names f).length ≤ 2 ^ 14 - 2) :
    Agrees names (block names) f ↔ (f = .psStatus → names f = []) := by
  constructor
  · rintro hagrees rfl
    by_contra hne
    obtain ⟨name, rest, hcons⟩ := List.exists_cons_of_ne_nil hne
    have hzero : (names .psStatus)[0]? = some name := by rw [hcons]; rfl
    have hhidden := (reaches_iff hzero hlen).mp
      ((hagrees name (List.mem_of_getElem? hzero)).2 _ (mem_offsets.mpr ⟨0, hzero, rfl⟩))
    exact absurd hhidden (by decide)
  · intro h name hname
    obtain ⟨k, hk⟩ := List.mem_iff_getElem?.mp hname
    refine ⟨⟨_, mem_offsets.mpr ⟨k, hk, rfl⟩⟩, fun offset hmem => ?_⟩
    obtain ⟨k, hk, rfl⟩ := mem_offsets.mp hmem
    refine (reaches_iff hk hlen).mpr ?_
    cases f with
    | control => exact Nat.zero_le _
    | psControl => exact Nat.zero_le _
    | status => exact Nat.le_add_right 2 k
    | psStatus =>
      rw [h rfl] at hk
      exact absurd hk (by simp)

theorem generate_eq {config : Config} {blocks : Family → Block}
    (h : generate config = some (names, blocks)) : blocks = block names := by
  obtain ⟨names', hnames, hrest⟩ := Option.bind_eq_some_iff.mp h
  rw [addCtlSts_eq] at hrest
  obtain ⟨rfl, rfl⟩ := Prod.mk.inj (Option.some.inj hrest)
  rfl

end Blocks

/-- The three generators agree on a configuration just when it has no status
registers of the processing system. The lists may be as long as the addresses of
a block allow. -/
theorem registers_agree_iff (config : Config) (names : Names) (blocks : Family → Block)
    (hgenerate : generate config = some (names, blocks))
    (hlen : ∀ f, (names f).length ≤ 2 ^ 14 - 2) :
    (∀ f, Agrees names blocks f) ↔ names .psStatus = [] := by
  obtain rfl := generate_eq hgenerate
  constructor
  · intro hagrees
    exact (agrees_iff (hlen .psStatus)).mp (hagrees .psStatus) rfl
  · intro hnil f
    refine (agrees_iff (hlen f)).mpr fun hf => ?_
    rw [hf, hnil]

/-- The registers of the instrument. -/
def sesenta : Config where
  registers
    | .control => ["rst_regs", "dma_gate", "dma_gate1", "n_samples", "mic_select", "led_select",
        "start_capture"].map String.toList
    | .status => ["mode", "done_capture"].map String.toList
    | .psControl | .psStatus => []
  parameters name := if name = "fclk0".toList then some 100000000 else none

def names (config : Config) : Names := (appendMemoryToConfig config).getD fun _ => []

theorem generate_of_names {config : Config} (h : appendMemoryToConfig config = some (names config)) :
    generate config = some (names config, block (names config)) := by
  rw [generate, h, Option.bind_eq_bind, Option.bind_some, addCtlSts_eq]
  rfl

theorem sesenta_registers_agree :
    (∀ f, Agrees (names sesenta) (block (names sesenta)) f) ↔ names sesenta .psStatus = [] :=
  registers_agree_iff sesenta (names sesenta) (block (names sesenta)) (generate_of_names rfl)
    (by intro f; cases f <;> decide)

/-- Status registers of the processing system. -/
def twoAlarms : Config where
  registers
    | .psStatus => ["alarm[2]".toList]
    | .control | .psControl | .status => []
  parameters _ := none

theorem twoAlarms_not_agree :
    generate twoAlarms = some (names twoAlarms, block (names twoAlarms)) ∧
      offsets (names twoAlarms) .psStatus = [("alarm0".toList, 0), ("alarm1".toList, 4)] ∧
      (block (names twoAlarms) .psStatus).wires = [] ∧
      ¬ Agrees (names twoAlarms) (block (names twoAlarms)) .psStatus := by
  refine ⟨generate_of_names rfl, rfl, rfl, fun hagrees => ?_⟩
  have hnil := (agrees_iff (by decide)).mp hagrees rfl
  exact absurd hnil (by decide)

end RegisterMap
