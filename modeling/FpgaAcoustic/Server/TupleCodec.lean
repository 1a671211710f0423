-- SUMMARY: Tuples of scalars in a buffer: the writes at running offsets, and that writing and reading are inverse.
import FpgaAcoustic.Server.Serdes

/-!
# Tuples

A tuple is written one element after the other, each where the one before ends.
The writes add up to one write of the whole, which covers the size of the tuple
and nothing else. Every byte string of that size is one that is written, but for
the bytes of a `bool`, of which only two are.
-/

namespace Koheron

open Bytes

/-! ## Definitions -/

/-- `detail::serialize<buff_pos, I, Tp...>`, for the elements from `I` on. -/
def serializeAt (buffPos : ℕ) : List Datum → Memory → Memory
  | [], buff => buff
  | d :: ds, buff => serializeAt (buffPos + d.ty.size) ds (buff.writeAt buffPos (append d.ty d.val))

/-- `serialize`: the array, of which `arr` is the memory before it is written. -/
def serializeArray (ds : List Datum) (arr : Memory) : List Byte :=
  (serializeAt 0 ds arr).take (requiredBufferSize (ds.map Datum.ty))

/-! ## Specification -/

/-- The first `n` bytes are written, whatever they were, and no other. -/
structure Touches (f : Memory → Memory) (n : ℕ) : Prop where
  written : ∀ m m' i, i < n → f m i = f m' i
  kept : ∀ m i, n ≤ i → f m i = m i

/-- The bytes at the places of the `bool`s are 0 or 1. -/
def BoolBytes : List Scalar → List Byte → Prop
  | [], _ => True
  | ty :: tys, bs =>
    (ty = .bool → bs.head? = some 0 ∨ bs.head? = some 1) ∧ BoolBytes tys (bs.drop ty.size)

/-! ## Scalars from bytes -/

section Scalars

variable {m : Memory}

theorem append16_extract (m : Memory) : append16 (extract16 m) = m.take 2 := by
  have h0 := (m 0).isLt
  have h1 := (m 1).isLt
  have hvalue : (extract16 m).toNat = 256 * (m 0).toNat + (m 1).toNat := by
    simp only [extract16, BitVec.toNat_add, BitVec.toNat_shiftLeft, BitVec.toNat_setWidth,
      Nat.shiftLeft_eq]
    omega
  have htake : m.take 2 = [m 0, m 1] := rfl
  rw [htake, append16, List.cons.injEq, List.cons.injEq, ← BitVec.toNat_inj, ← BitVec.toNat_inj,
    toNat_byteAt _ _ (by decide), toNat_byteAt _ _ (by decide), hvalue]
  exact ⟨by omega, by omega, rfl⟩

theorem append32_extract (m : Memory) : append32 (extract32 m) = m.take 4 := by
  have h0 := (m 0).isLt
  have h1 := (m 1).isLt
  have h2 := (m 2).isLt
  have h3 := (m 3).isLt
  have hvalue := toNat_extract32 m
  have htake : m.take 4 = [m 0, m 1, m 2, m 3] := rfl
  rw [htake, append32, List.cons.injEq, List.cons.injEq, List.cons.injEq, List.cons.injEq,
    ← BitVec.toNat_inj, ← BitVec.toNat_inj, ← BitVec.toNat_inj, ← BitVec.toNat_inj,
    toNat_byteAt _ _ (by decide), toNat_byteAt _ _ (by decide), toNat_byteAt _ _ (by decide),
    toNat_byteAt _ _ (by decide), hvalue]
  exact ⟨by omega, by omega, by omega, by omega, rfl⟩

theorem append64_extract (m : Memory) : append64 (extract64 m) = m.take 8 := by
  have hlow := (extract32 (m.drop 4)).isLt
  have hhigh := (extract32 m).isLt
  have hvalue : (extract64 m).toNat =
      2 ^ 32 * (extract32 m).toNat + (extract32 (m.drop 4)).toNat := by
    simp only [extract64, BitVec.toNat_add, BitVec.toNat_shiftLeft, BitVec.toNat_setWidth,
      Nat.shiftLeft_eq]
    omega
  have hfirst : ((extract64 m) >>> 32).setWidth 32 = extract32 m := by
    rw [← BitVec.toNat_inj, BitVec.toNat_setWidth, BitVec.toNat_ushiftRight,
      Nat.shiftRight_eq_div_pow, hvalue]
    omega
  have hsecond : (extract64 m).setWidth 32 = extract32 (m.drop 4) := by
    rw [← BitVec.toNat_inj, BitVec.toNat_setWidth, hvalue]
    omega
  rw [append64, hfirst, hsecond, append32_extract, append32_extract, ← Memory.take_add]

/-- A scalar that was read is written as it was, a `bool` if it was 0 or 1. -/
theorem append_extract {ty : Scalar} (h : ty = .bool → m 0 = 0 ∨ m 0 = 1) :
    append ty (extract ty m) = m.take ty.size := by
  cases ty with
  | uint8 | int8 => rfl
  | uint16 | int16 => exact append16_extract m
  | uint32 | int32 | float => exact append32_extract m
  | uint64 | int64 | double => exact append64_extract m
  | bool =>
    have htake : m.take 1 = [m 0] := rfl
    show appendBool (m 0 == 1) = m.take 1
    rcases h rfl with hzero | hone
    · rw [htake, hzero]
      rfl
    · rw [htake, hone]
      rfl
  | complexFloat =>
    show append32 (extract32 m) ++ append32 (extract32 (m.drop 4)) = m.take 8
    rw [append32_extract, append32_extract, ← Memory.take_add]
  | complexDouble =>
    show append64 (extract64 m) ++ append64 (extract64 (m.drop 8)) = m.take 16
    rw [append64_extract, append64_extract, ← Memory.take_add]

end Scalars

/-! ## Tuples -/

section Tuples

variable {tys : List Scalar} {ds : List Datum} {bs : List Byte} {buff arr : Memory} {position : ℕ}

/-- The writes of the elements are one write of the whole. -/
theorem serializeAt_eq (ds : List Datum) (buffPos : ℕ) (buff : Memory) :
    serializeAt buffPos ds buff = buff.writeAt buffPos (serialize ds) := by
  induction ds generalizing buffPos buff with
  | nil =>
    funext i
    rcases Nat.lt_or_ge i buffPos with hlt | hge
    · exact (Memory.writeAt_apply_of_lt buff [] hlt).symm
    · exact (Memory.writeAt_apply_of_le buff hge).symm
  | cons d ds ih =>
    rw [serializeAt, ih, serialize_cons, ← Memory.writeAt_writeAt, length_append]

theorem serializeArray_eq (ds : List Datum) (arr : Memory) : serializeArray ds arr = serialize ds := by
  have hstarts := Memory.writeAt_starts (Memory.Starts.nil arr) (serialize ds)
  rw [Memory.Starts, List.nil_append, length_serialize] at hstarts
  rw [serializeArray, serializeAt_eq]
  exact hstarts

theorem serializeAt_touches (ds : List Datum) :
    Touches (serializeAt 0 ds) (requiredBufferSize (ds.map Datum.ty)) := by
  refine ⟨fun m m' i hi => ?_, fun m i hi => ?_⟩
  · rw [← length_serialize] at hi
    have hwritten : ∀ m : Memory, serializeAt 0 ds m i = (serialize ds)[i] := by
      intro m
      have happly := Memory.writeAt_apply_add m (k := 0) hi
      rwa [Nat.zero_add, ← serializeAt_eq] at happly
    rw [hwritten, hwritten]
  · rw [serializeAt_eq]
    refine Memory.writeAt_apply_of_le m ?_
    rwa [length_serialize, Nat.zero_add]

theorem apply_zero_of_starts {b : Byte} (h : buff.Starts bs) (hb : bs.head? = some b) : buff 0 = b := by
  obtain ⟨rest, rfl⟩ : ∃ rest, bs = b :: rest := ⟨bs.tail, (List.cons_head?_tail hb).symm⟩
  exact (Memory.starts_cons.mp h).1

/-- Induction on the types; the bytes and the position go along. -/
theorem serialize_deserialize (hlen : bs.length = requiredBufferSize tys) (hbool : BoolBytes tys bs)
    (h : (buff.drop position).Starts bs) : serialize (deserialize position tys buff) = bs := by
  induction tys generalizing bs position with
  | nil => exact (List.length_eq_zero_iff.mp hlen).symm
  | cons ty tys ih =>
    have hsize : bs.length = ty.size + requiredBufferSize tys := hlen
    have hsplit := h
    rw [← List.take_append_drop ty.size bs, Memory.starts_append,
      List.length_take_of_le (by omega), Memory.drop_drop] at hsplit
    obtain ⟨hfirst, hrest⟩ := hsplit
    have hscalar : append ty (extract ty (buff.drop position)) = bs.take ty.size := by
      have htake : (buff.drop position).take ty.size = bs.take ty.size := by
        rw [Memory.Starts, List.length_take_of_le (by omega)] at hfirst
        exact hfirst
      rw [← htake]
      refine append_extract fun hty => ?_
      rcases hbool.1 hty with hzero | hone
      · exact .inl (apply_zero_of_starts h hzero)
      · exact .inr (apply_zero_of_starts h hone)
    have htuple := ih (by rw [List.length_drop]; omega) hbool.2 hrest
    rw [deserialize, serialize_cons, hscalar, htuple, List.take_append_drop]

end Tuples

end Koheron
