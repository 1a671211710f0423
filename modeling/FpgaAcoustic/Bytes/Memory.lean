-- SUMMARY: Bytes, byte-addressed memories and what they start with, and little-endian images of numbers.
import Mathlib.Data.List.Range
import Mathlib.Algebra.Order.Monoid.Unbundled.Pow
import Mathlib.Tactic.Ring

/-!
# Memories

A buffer in memory is a function from addresses to bytes. It has no end, so a
read past what was written shows whatever was there before. What a program
knows of a buffer is the list of bytes that it starts with.
-/

namespace Bytes

abbrev Byte : Type := BitVec 8

/-- The bytes from some address on. -/
abbrev Memory : Type := ℕ → Byte

namespace Memory

/-- The memory from address `k` on. -/
def drop (m : Memory) (k : ℕ) : Memory := fun i => m (k + i)

/-- The first `n` bytes. -/
def take (m : Memory) (n : ℕ) : List Byte := (List.range n).map m

/-- The memory with its first bytes overwritten. -/
def write (m : Memory) (bs : List Byte) : Memory := fun i => bs[i]?.getD (m i)

/-- The memory with the bytes from address `k` on overwritten. -/
def writeAt (m : Memory) (k : ℕ) (bs : List Byte) : Memory := fun i =>
  if i < k then m i else bs[i - k]?.getD (m i)

/-- A memory that holds `bs`, and zeros after them. -/
def ofBytes (bs : List Byte) : Memory := fun i => bs[i]?.getD 0

/-- The first bytes are `bs`. -/
def Starts (m : Memory) (bs : List Byte) : Prop := m.take bs.length = bs

@[simp] theorem drop_apply (m : Memory) (k i : ℕ) : m.drop k i = m (k + i) := rfl

@[simp] theorem drop_zero (m : Memory) : m.drop 0 = m := by
  funext i
  simp

@[simp] theorem drop_drop (m : Memory) (j k : ℕ) : (m.drop j).drop k = m.drop (j + k) := by
  funext i
  simp [Nat.add_assoc]

@[simp] theorem length_take (m : Memory) (n : ℕ) : (m.take n).length = n := by
  simp [take]

theorem take_add (m : Memory) (j k : ℕ) : m.take (j + k) = m.take j ++ (m.drop j).take k := by
  simp [take, List.range_add, Function.comp_def, drop]

theorem Starts.nil (m : Memory) : m.Starts [] := rfl

theorem starts_append {m : Memory} {bs cs : List Byte} :
    m.Starts (bs ++ cs) ↔ m.Starts bs ∧ (m.drop bs.length).Starts cs := by
  unfold Starts
  rw [List.length_append, take_add]
  constructor
  · intro h
    exact List.append_inj h (length_take m bs.length)
  · rintro ⟨hbs, hcs⟩
    rw [hbs, hcs]

theorem starts_cons {m : Memory} {b : Byte} {bs : List Byte} :
    m.Starts (b :: bs) ↔ m 0 = b ∧ (m.drop 1).Starts bs := by
  have hone : m.Starts [b] ↔ m 0 = b := by simp [Starts, take]
  rw [← hone]
  exact @starts_append m [b] bs

theorem starts_iff {m : Memory} {bs : List Byte} :
    m.Starts bs ↔ ∀ (i : ℕ) (hi : i < bs.length), m i = bs[i] := by
  constructor
  · intro h i hi
    have hget : (m.take bs.length)[i]? = bs[i]? := congrArg (·[i]?) h
    simpa [take, hi] using hget
  · intro h
    refine List.ext_getElem (length_take m bs.length) ?_
    intro i hi hi'
    simpa [take] using h i hi'

theorem write_apply_of_lt (m : Memory) {bs : List Byte} {i : ℕ} (h : i < bs.length) :
    m.write bs i = bs[i] := by
  rw [write, List.getElem?_eq_getElem h, Option.getD_some]

theorem write_apply_of_le (m : Memory) {bs : List Byte} {i : ℕ} (h : bs.length ≤ i) :
    m.write bs i = m i := by
  rw [write, List.getElem?_eq_none h, Option.getD_none]

theorem write_starts (m : Memory) (bs : List Byte) : (m.write bs).Starts bs := by
  refine List.ext_getElem (by simp) ?_
  intro i hi hi'
  simp [take, write, hi']

theorem writeAt_apply_of_lt (m : Memory) {k i : ℕ} (bs : List Byte) (h : i < k) :
    m.writeAt k bs i = m i := if_pos h

theorem writeAt_apply_of_le (m : Memory) {k i : ℕ} {bs : List Byte} (h : k + bs.length ≤ i) :
    m.writeAt k bs i = m i := by
  rw [writeAt, if_neg (by omega), List.getElem?_eq_none (by omega), Option.getD_none]

theorem writeAt_apply_add (m : Memory) {k i : ℕ} {bs : List Byte} (h : i < bs.length) :
    m.writeAt k bs (k + i) = bs[i] := by
  rw [writeAt, if_neg (by omega), Nat.add_sub_cancel_left, List.getElem?_eq_getElem h,
    Option.getD_some]

/-- A write where another ends. -/
theorem writeAt_writeAt (m : Memory) (k : ℕ) (bs cs : List Byte) :
    (m.writeAt k bs).writeAt (k + bs.length) cs = m.writeAt k (bs ++ cs) := by
  funext i
  rcases Nat.lt_or_ge i k with hlt | hge
  · rw [writeAt_apply_of_lt _ _ (by omega), writeAt_apply_of_lt _ _ hlt,
      writeAt_apply_of_lt _ _ hlt]
  · obtain ⟨j, rfl⟩ := Nat.exists_eq_add_of_le hge
    rcases Nat.lt_or_ge j bs.length with hj | hj
    · rw [writeAt_apply_of_lt _ _ (by omega), writeAt_apply_add _ hj,
        writeAt_apply_add _ (by rw [List.length_append]; omega), List.getElem_append_left hj]
    · have hsub : k + j - (k + bs.length) = j - bs.length := by omega
      rw [writeAt, if_neg (by omega), writeAt_apply_of_le _ (by omega), hsub, writeAt,
        if_neg (by omega), Nat.add_sub_cancel_left, List.getElem?_append_right hj]

/-- Writing where the known bytes end. -/
theorem writeAt_starts {m : Memory} {bs : List Byte} (h : m.Starts bs) (cs : List Byte) :
    (m.writeAt bs.length cs).Starts (bs ++ cs) := by
  rw [starts_append]
  refine ⟨?_, ?_⟩
  · have htake : (m.writeAt bs.length cs).take bs.length = m.take bs.length := by
      apply List.map_congr_left
      intro i hi
      exact if_pos (List.mem_range.mp hi)
    exact htake.trans h
  · have hdrop : (m.writeAt bs.length cs).drop bs.length = (m.drop bs.length).write cs := by
      funext i
      simp [writeAt, write]
    rw [hdrop]
    exact write_starts _ cs

theorem ofBytes_of_length_le {bs : List Byte} {i : ℕ} (h : bs.length ≤ i) : ofBytes bs i = 0 := by
  simp [ofBytes, h]

theorem ofBytes_starts (bs : List Byte) : (ofBytes bs).Starts bs := by
  rw [starts_iff]
  intro i hi
  rw [ofBytes, List.getElem?_eq_getElem hi, Option.getD_some]

theorem drop_ofBytes (bs : List Byte) (k : ℕ) : (ofBytes bs).drop k = ofBytes (bs.drop k) := by
  funext i
  simp [ofBytes]

theorem Starts.apply_eq_ofBytes {m : Memory} {bs : List Byte} {i : ℕ} (h : m.Starts bs)
    (hi : i < bs.length) : m i = ofBytes bs i := by
  rw [starts_iff.mp h i hi, ofBytes, List.getElem?_eq_getElem hi, Option.getD_some]

theorem Starts.drop {m : Memory} {bs : List Byte} (h : m.Starts bs) (k : ℕ) :
    (m.drop k).Starts (bs.drop k) := by
  rcases lt_or_ge k bs.length with hlt | hle
  · have happ : m.Starts (bs.take k ++ bs.drop k) := by rwa [List.take_append_drop]
    have hdrop := (starts_append.mp happ).2
    rwa [List.length_take_of_le hlt.le] at hdrop
  · rw [List.drop_of_length_le hle]
    exact Starts.nil _

end Memory

/-! ## Little-endian images -/

/-- The `n` low bytes of `v`, the lowest first. -/
def leBytes (n v : ℕ) : List Byte := (List.range n).map fun i => BitVec.ofNat 8 (v / 256 ^ i)

/-- The number with the low byte first. -/
def ofLeBytes (bs : List Byte) : ℕ := bs.foldr (fun b v => b.toNat + 256 * v) 0

@[simp] theorem length_leBytes (n v : ℕ) : (leBytes n v).length = n := by
  simp [leBytes]

theorem leBytes_succ (n v : ℕ) : leBytes (n + 1) v = BitVec.ofNat 8 v :: leBytes n (v / 256) := by
  have hdiv : ∀ i, v / 256 ^ (i + 1) = v / 256 / 256 ^ i := by
    intro i
    rw [Nat.div_div_eq_div_mul, pow_succ']
  simp [leBytes, List.range_succ_eq_map, Function.comp_def, hdiv]

theorem ofLeBytes_leBytes {n v : ℕ} (h : v < 256 ^ n) : ofLeBytes (leBytes n v) = v := by
  induction n generalizing v with
  | zero =>
    have hv : v = 0 := by simpa using h
    rw [hv]
    rfl
  | succ n ih =>
    have hdiv : v / 256 < 256 ^ n := by
      rw [Nat.div_lt_iff_lt_mul (by norm_num), ← pow_succ]
      exact h
    have hcons : ofLeBytes (leBytes (n + 1) v) =
        (BitVec.ofNat 8 v).toNat + 256 * ofLeBytes (leBytes n (v / 256)) := by
      rw [leBytes_succ]
      rfl
    rw [hcons, ih hdiv, BitVec.toNat_ofNat]
    omega

end Bytes
