-- SUMMARY: The memory entries of a configuration and Memory::open, and the entries whose mapped window holds every byte of the entry.
import FpgaAcoustic.Build.RegisterMap
import Mathlib.Data.BitVec

/-!
# Memory windows

`make.py` gives each memory entry a number of blocks and a protection, and the
header takes its physical address, its range and its blocks as words of 32 bits.
`Memory::open` maps as many bytes as the blocks have together, from the address
with the bits of `size - 1` cleared, and finds the entry at these bits.
-/

namespace MemoryMap

open RegisterMap (Str readParameters)

/-! ## The entries -/

/-- An entry of `memory` in `config.yml`. -/
structure Address where
  name : Str
  offset : ℕ
  range : ℕ
  protection : Option Str := none
  deriving DecidableEq, Repr

inductive ProtFlag
  | readWrite
  | read
  | write
  deriving DecidableEq, Repr

/-- None where no branch sets the flag. -/
def protFlag : Option Str → Option ProtFlag
  | none => some .readWrite
  | some protection =>
    if protection = "read".toList then some .read
    else if protection = "write".toList then some .write
    else none

/-- An entry with what `build_memory` adds to it. -/
structure Entry where
  name : Str
  nBlocks : ℤ
  offset : ℕ
  range : ℕ
  flag : Option ProtFlag
  deriving DecidableEq, Repr

def buildAddress (parameters : Str → Option ℤ) (address : Address) : Option Entry := do
  let (name, nBlocks) ← readParameters address.name parameters
  guard (0 < nBlocks)
  pure ⟨name, nBlocks, address.offset, address.range, protFlag address.protection⟩

/-- None where an `assert` fails. -/
def buildMemory (memory : List Address) (parameters : Str → Option ℤ) : Option (List Entry) :=
  memory.mapM (buildAddress parameters)

theorem buildAddress_pos {parameters : Str → Option ℤ} {address : Address} {e : Entry}
    (h : buildAddress parameters address = some e) : 0 < e.nBlocks := by
  unfold buildAddress at h
  cases hread : readParameters address.name parameters with
  | none => simp [hread] at h
  | some read =>
    by_cases hpos : 0 < read.2
    · simp only [hread, Option.bind_eq_bind, Option.bind_some, guard, if_pos hpos, Option.pure_def,
        Option.some.injEq] at h
      rw [← h]
      exact hpos
    · simp [hread, guard, hpos] at h

/-- What a fallible map returns comes from the entries it was given. -/
theorem mem_of_mapM {α β : Type} {f : α → Option β} {l : List α} {m : List β}
    (h : l.mapM f = some m) {b : β} (hb : b ∈ m) : ∃ a ∈ l, f a = some b := by
  induction l generalizing m with
  | nil =>
    rw [List.mapM_nil, Option.pure_def, Option.some.injEq] at h
    rw [← h] at hb
    exact absurd hb List.not_mem_nil
  | cons a l ih =>
    rw [List.mapM_cons, Option.bind_eq_bind, Option.bind_eq_some_iff] at h
    obtain ⟨b', hhead, h⟩ := h
    rw [Option.bind_eq_bind, Option.bind_eq_some_iff] at h
    obtain ⟨m', htail, h⟩ := h
    rw [Option.pure_def, Option.some.injEq] at h
    rw [← h, List.mem_cons] at hb
    rcases hb with rfl | hb
    · exact ⟨a, List.mem_cons_self .., hhead⟩
    · obtain ⟨a', ha', heq⟩ := ih htail hb
      exact ⟨a', List.mem_cons_of_mem _ ha', heq⟩

theorem buildMemory_pos {memory : List Address} {parameters : Str → Option ℤ} {entries : List Entry}
    (h : buildMemory memory parameters = some entries) {e : Entry} (he : e ∈ entries) :
    0 < e.nBlocks := by
  obtain ⟨address, -, haddress⟩ := mem_of_mapM h he
  exact buildAddress_pos haddress

/-! ## The header -/

def getBaseAddr (e : Entry) : BitVec 32 := BitVec.ofNat 32 e.offset
def getRange (e : Entry) : BitVec 32 := BitVec.ofNat 32 e.range
def getNBlocks (e : Entry) : BitVec 32 := BitVec.ofInt 32 e.nBlocks
def getTotalSize (e : Entry) : BitVec 32 := getRange e * getNBlocks e

def getMmapOffset (physAddr size : BitVec 32) : BitVec 32 := physAddr &&& ~~~(size - 1)

/-! ## Memory::open -/

structure Memory where
  mappedBase : BitVec 32
  baseAddress : BitVec 32
  isOpened : Bool
  deriving DecidableEq, Repr

/-- `mmap`, as a function of the length and the file offset, gives `-1` where it
fails. -/
def Memory.open (mmap : BitVec 32 → BitVec 32 → BitVec 32) (e : Entry) : Memory :=
  let size := getTotalSize e
  let mappedBase := mmap size (getMmapOffset (getBaseAddr e) size)
  if mappedBase = -1 then ⟨mappedBase, 0, false⟩
  else ⟨mappedBase, mappedBase + (getBaseAddr e &&& (size - 1)), true⟩

/-- A mapping lies in the address space. -/
def Maps (mmap : BitVec 32 → BitVec 32 → BitVec 32) : Prop :=
  ∀ size offset, mmap size offset ≠ -1 → (mmap size offset).toNat + size.toNat ≤ 2 ^ 32

/-- The physical address behind an address, if it is one of the `size` bytes
mapped at `base` from the file offset. -/
def designated (base size offset addr : BitVec 32) : Option ℕ :=
  if base.toNat ≤ addr.toNat ∧ addr.toNat < base.toNat + size.toNat then
    some (offset.toNat + (addr.toNat - base.toNat))
  else none

/-- The bytes of an entry. -/
def Entry.bytes (e : Entry) : ℕ := e.range * e.nBlocks.toNat

/-- Every byte of an entry is found in the mapped window. -/
def Windowed (mmap : BitVec 32 → BitVec 32 → BitVec 32) (e : Entry) : Prop :=
  ∀ o < e.bytes,
    designated (Memory.open mmap e).mappedBase (getTotalSize e)
      (getMmapOffset (getBaseAddr e) (getTotalSize e))
      ((Memory.open mmap e).baseAddress + BitVec.ofNat 32 o) = some (e.offset + o)

/-- The entries of 32-bit words: whole pages, a range that is a power of two. -/
structure Entry.Fits (e : Entry) : Prop where
  page_dvd : 2 ^ 12 ∣ e.offset
  offset_lt : e.offset < 2 ^ 32
  range_pow : ∃ k, 12 ≤ k ∧ e.range = 2 ^ k
  bytes_lt : e.bytes < 2 ^ 32

/-! ## The mask -/

section Mask

variable {w : ℕ}

/-- The bits outside a mask and the bits inside make up the word. -/
theorem toNat_mask_add (x mask : BitVec w) :
    (x &&& ~~~mask).toNat + (x &&& mask).toNat = x.toNat := by
  have hdisjoint : (x &&& ~~~mask) &&& (x &&& mask) = 0#w := by
    rw [BitVec.and_comm x mask, BitVec.and_assoc, ← BitVec.and_assoc (~~~mask),
      BitVec.not_and_self]
    simp
  rw [← BitVec.toNat_add_of_and_eq_zero hdisjoint, BitVec.add_eq_or_of_and_eq_zero _ _ hdisjoint,
    ← BitVec.and_or_distrib_left, BitVec.not_or_self, BitVec.and_allOnes]

theorem toNat_pred {size : BitVec w} (h : 0 < size.toNat) :
    (size - 1#w).toNat = size.toNat - 1 := by
  have hlt := size.isLt
  have hone : (1#w).toNat = 1 := by
    rw [BitVec.toNat_ofNat, Nat.mod_eq_of_lt (by omega)]
  rw [BitVec.toNat_sub_of_le (by rw [BitVec.le_def, hone]; exact h), hone]

theorem toNat_and_pred_lt (x : BitVec w) {size : BitVec w} (h : 0 < size.toNat) :
    (x &&& (size - 1#w)).toNat < size.toNat := by
  have hle : (x &&& (size - 1#w)).toNat ≤ (size - 1#w).toNat := by
    rw [BitVec.toNat_and]
    exact Nat.and_le_right
  rw [toNat_pred h] at hle
  omega

/-- A page-aligned word is page-aligned outside any mask. -/
theorem dvd_toNat_mask {k : ℕ} {x : BitVec w} (h : 2 ^ k ∣ x.toNat) (mask : BitVec w) :
    2 ^ k ∣ (x &&& mask).toNat := by
  rw [BitVec.toNat_and]
  refine Nat.dvd_of_mod_eq_zero ?_
  rw [Nat.and_mod_two_pow, Nat.mod_eq_zero_of_dvd h, Nat.zero_and]

/-- The bits below a power of two are the remainder. -/
theorem and_pred_eq_zero_iff {k : ℕ} (x : BitVec w) {size : BitVec w} (h : size.toNat = 2 ^ k) :
    x &&& (size - 1#w) = 0#w ↔ 2 ^ k ∣ x.toNat := by
  have hpred := toNat_pred (h ▸ Nat.two_pow_pos k)
  rw [← BitVec.toNat_inj, BitVec.toNat_and, hpred, h, Nat.and_two_pow_sub_one_eq_mod,
    BitVec.toNat_zero, Nat.dvd_iff_mod_eq_zero]

end Mask

/-! ## The window -/

section Window

variable {mmap : BitVec 32 → BitVec 32 → BitVec 32} {e : Entry}

theorem toNat_getBaseAddr (h : e.Fits) : (getBaseAddr e).toNat = e.offset := by
  rw [getBaseAddr, BitVec.toNat_ofNat, Nat.mod_eq_of_lt h.offset_lt]

theorem toNat_getTotalSize (h : e.Fits) (hpos : 0 < e.nBlocks) :
    (getTotalSize e).toNat = e.bytes := by
  obtain ⟨n, hn⟩ := Int.eq_ofNat_of_zero_le hpos.le
  have hblocks : getNBlocks e = BitVec.ofNat 32 n := by
    rw [getNBlocks, hn]
    rfl
  have hbytes : e.bytes = e.range * n := by
    rw [Entry.bytes, hn]
    rfl
  rw [getTotalSize, getRange, hblocks, ← BitVec.ofNat_mul, BitVec.toNat_ofNat, ← hbytes,
    Nat.mod_eq_of_lt h.bytes_lt]

theorem bytes_pos (h : e.Fits) (hpos : 0 < e.nBlocks) : 0 < e.bytes := by
  obtain ⟨k, -, hk⟩ := h.range_pow
  rw [Entry.bytes, hk]
  exact Nat.mul_pos (Nat.two_pow_pos k) (by omega)

/-- What `mmap` is asked for starts with a page. -/
theorem page_dvd_getMmapOffset (h : e.Fits) (size : BitVec 32) :
    2 ^ 12 ∣ (getMmapOffset (getBaseAddr e) size).toNat := by
  refine dvd_toNat_mask ?_ _
  rw [toNat_getBaseAddr h]
  exact h.page_dvd

theorem open_of_isOpened (h : (Memory.open mmap e).isOpened = true) :
    (Memory.open mmap e).mappedBase =
        mmap (getTotalSize e) (getMmapOffset (getBaseAddr e) (getTotalSize e)) ∧
      (Memory.open mmap e).mappedBase ≠ -1 ∧
      (Memory.open mmap e).baseAddress =
        (Memory.open mmap e).mappedBase + (getBaseAddr e &&& (getTotalSize e - 1)) := by
  unfold Memory.open at h ⊢
  dsimp only at h ⊢
  split at h
  · exact Bool.noConfusion h
  · rename_i hbase
    rw [if_neg hbase]
    exact ⟨rfl, hbase, rfl⟩

/-- A byte is found in the window just when it lies before the end of the
mapping, counted from the bits of the mask. -/
theorem designated_iff (hmap : Maps mmap) (hopened : (Memory.open mmap e).isOpened = true)
    (h : e.Fits) (hpos : 0 < e.nBlocks) {o : ℕ} (ho : o < e.bytes) :
    designated (Memory.open mmap e).mappedBase (getTotalSize e)
        (getMmapOffset (getBaseAddr e) (getTotalSize e))
        ((Memory.open mmap e).baseAddress + BitVec.ofNat 32 o) = some (e.offset + o) ↔
      (getBaseAddr e &&& (getTotalSize e - 1)).toNat + o < e.bytes := by
  obtain ⟨hbase, hne, haddr⟩ := open_of_isOpened hopened
  have hfit := hmap (getTotalSize e) (getMmapOffset (getBaseAddr e) (getTotalSize e)) (hbase ▸ hne)
  rw [← hbase] at hfit
  have hsize := toNat_getTotalSize h hpos
  have hsplit := toNat_mask_add (getBaseAddr e) (getTotalSize e - 1)
  rw [toNat_getBaseAddr h] at hsplit
  have hmask := toNat_and_pred_lt (getBaseAddr e) (hsize ▸ bytes_pos h hpos)
  have hbytes := h.bytes_lt
  rw [haddr, designated, getMmapOffset]
  generalize (Memory.open mmap e).mappedBase = base at *
  generalize getBaseAddr e &&& ~~~(getTotalSize e - 1) = offset at *
  generalize hm : getBaseAddr e &&& (getTotalSize e - 1) = mask at *
  rw [BitVec.toNat_add, BitVec.toNat_add, BitVec.toNat_ofNat, hsize]
  rw [hsize] at hfit hmask
  constructor
  · intro hsome
    split at hsome
    · rw [Option.some.injEq] at hsome
      omega
    · exact absurd hsome (by simp)
  · intro hlt
    rw [if_pos (by omega), Option.some.injEq]
    omega

theorem windowed_iff_mask (hmap : Maps mmap) (hopened : (Memory.open mmap e).isOpened = true)
    (h : e.Fits) (hpos : 0 < e.nBlocks) :
    Windowed mmap e ↔ getBaseAddr e &&& (getTotalSize e - 1) = 0#32 := by
  have hbytes := bytes_pos h hpos
  constructor
  · intro hwindow
    have hlast := (designated_iff hmap hopened h hpos (Nat.sub_one_lt_of_lt hbytes)).mp
      (hwindow _ (Nat.sub_one_lt_of_lt hbytes))
    refine BitVec.eq_of_toNat_eq ?_
    rw [BitVec.toNat_zero]
    omega
  · intro hzero o ho
    rw [designated_iff hmap hopened h hpos ho, hzero, BitVec.toNat_zero, Nat.zero_add]
    exact ho

theorem windowed_iff {memory : List Address} {parameters : Str → Option ℤ} {entries : List Entry}
    (hbuild : buildMemory memory parameters = some entries) (he : e ∈ entries) (hfits : e.Fits)
    (hmap : Maps mmap) (hopened : (Memory.open mmap e).isOpened = true) :
    Windowed mmap e ↔ getBaseAddr e &&& (getTotalSize e - 1) = 0#32 :=
  windowed_iff_mask hmap hopened hfits (buildMemory_pos hbuild he)

/-- An entry whose size is a power of two has to lie at a multiple of it. -/
theorem windowed_iff_dvd (hmap : Maps mmap) (hopened : (Memory.open mmap e).isOpened = true)
    (h : e.Fits) (hpos : 0 < e.nBlocks) {k : ℕ} (hk : e.bytes = 2 ^ k) :
    Windowed mmap e ↔ e.bytes ∣ e.offset := by
  have hsize : (getTotalSize e).toNat = 2 ^ k := (toNat_getTotalSize h hpos).trans hk
  rw [windowed_iff_mask hmap hopened h hpos, hk, ← toNat_getBaseAddr h]
  exact and_pred_eq_zero_iff (getBaseAddr e) hsize

end Window

/-! ## The shipped configuration -/

def sesenta : List Address :=
  [⟨"control".toList, 0x40000000, 4 * 1024, none⟩,
    ⟨"status".toList, 0x50000000, 4 * 1024, none⟩,
    ⟨"ram".toList, 0x1E000000, 16 * 1024 * 1024, none⟩,
    ⟨"ram2".toList, 0x1F000000, 16 * 1024 * 1024, none⟩,
    ⟨"dma".toList, 0x40400000, 64 * 1024, none⟩,
    ⟨"dma1".toList, 0x40480000, 64 * 1024, none⟩,
    ⟨"axi_hp0".toList, 0xF8008000, 4 * 1024, none⟩,
    ⟨"axi_hp1".toList, 0xF800F000, 8 * 1024, none⟩,
    ⟨"mic0".toList, 0x40040000, 8 * 1024, none⟩,
    ⟨"mic1".toList, 0x40060000, 8 * 1024, none⟩,
    ⟨"mic2".toList, 0x40080000, 8 * 1024, none⟩,
    ⟨"mic3".toList, 0x40100000, 8 * 1024, none⟩]

/-- The parameters of the configuration that are integers. -/
def parameters (name : Str) : Option ℤ := if name = "fclk0".toList then some 100000000 else none

def entries : List Entry := (buildMemory sesenta parameters).getD []

theorem sesenta_built : buildMemory sesenta parameters = some entries := by
  have hsome : (buildMemory sesenta parameters).isSome = true := by decide
  obtain ⟨built, hbuilt⟩ := Option.isSome_iff_exists.mp hsome
  rw [entries, hbuilt, Option.getD_some]

/-- A mapping at one address, as long as the space above it. -/
def mapAt (base size _offset : BitVec 32) : BitVec 32 :=
  if base.toNat + size.toNat ≤ 2 ^ 32 then base else -1

theorem mapAt_maps (base : BitVec 32) : Maps (mapAt base) := by
  intro size offset hne
  unfold mapAt at hne ⊢
  split
  · assumption
  · rename_i hfit
    rw [if_neg hfit] at hne
    exact absurd rfl hne

def control : Entry := ⟨"control".toList, 1, 0x40000000, 4 * 1024, some .readWrite⟩
def axiHp1 : Entry := ⟨"axi_hp1".toList, 1, 0xF800F000, 8 * 1024, some .readWrite⟩

theorem control_windowed :
    Windowed (mapAt 0xB6F00000#32) control ↔
      getBaseAddr control &&& (getTotalSize control - 1) = 0#32 :=
  windowed_iff sesenta_built (by decide) ⟨by decide, by decide, ⟨12, by decide, rfl⟩, by decide⟩
    (mapAt_maps _) (by decide)

/-- The base lies in the middle of the `8K` it is masked with, so the mapping
ends after the first half of the entry. -/
theorem axiHp1_not_windowed :
    axiHp1 ∈ entries ∧ axiHp1.Fits ∧ (Memory.open (mapAt 0xB6F00000#32) axiHp1).isOpened = true ∧
      ¬ Windowed (mapAt 0xB6F00000#32) axiHp1 := by
  refine ⟨by decide, ⟨by decide, by decide, ⟨13, by decide, rfl⟩, by decide⟩, by decide, ?_⟩
  intro hwindow
  exact absurd (hwindow 0x1000 (by decide)) (by decide)

/-- The other entries lie at multiples of their size. -/
example : entries.filter (fun e => getBaseAddr e &&& (getTotalSize e - 1) != 0#32) = [axiHp1] := by
  decide

end MemoryMap
