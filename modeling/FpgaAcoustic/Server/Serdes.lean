-- SUMMARY: The scalar codecs of the server, tuples of scalars, and arrays of scalars as they lie in memory.
import FpgaAcoustic.Bytes.Memory

/-!
# Serializer and deserializer

Scalars travel with the high byte first. The elements of an array, vector or
string travel as they lie in memory, where client and server are little-endian.
-/

namespace Koheron

open Bytes

/-- The types that have an `append` and an `extract`. -/
inductive Scalar
  | uint8
  | int8
  | uint16
  | int16
  | uint32
  | int32
  | uint64
  | int64
  | float
  | double
  | bool
  | complexFloat
  | complexDouble
  deriving DecidableEq, Repr

namespace Scalar

/-- `size_of<Tp>`. -/
def size : Scalar → ℕ
  | uint8 | int8 | bool => 1
  | uint16 | int16 => 2
  | uint32 | int32 | float => 4
  | uint64 | int64 | double | complexFloat => 8
  | complexDouble => 16

theorem size_pos (ty : Scalar) : 0 < ty.size := by
  cases ty <;> decide

/-- A value. Signed and floating-point numbers are their bit patterns. -/
@[reducible] def Val : Scalar → Type
  | uint8 | int8 => BitVec 8
  | uint16 | int16 => BitVec 16
  | uint32 | int32 | float => BitVec 32
  | uint64 | int64 | double => BitVec 64
  | bool => Bool
  | complexFloat => BitVec 32 × BitVec 32
  | complexDouble => BitVec 64 × BitVec 64

instance (ty : Scalar) : DecidableEq ty.Val := by
  cases ty <;> exact inferInstance

/-- `T()`. -/
def zero : (ty : Scalar) → ty.Val
  | uint8 | int8 => 0#8
  | uint16 | int16 => 0#16
  | uint32 | int32 | float => 0#32
  | uint64 | int64 | double => 0#64
  | bool => false
  | complexFloat => (0#32, 0#32)
  | complexDouble => (0#64, 0#64)

end Scalar

/-! ## Fixed widths -/

/-- `(value >> k) & 0xff`, stored in a byte. -/
def byteAt {w : ℕ} (value : BitVec w) (k : ℕ) : Byte := ((value >>> k) &&& 0xff).setWidth 8

def append8 (value : BitVec 8) : List Byte := [value]

def append16 (value : BitVec 16) : List Byte := [byteAt value 8, byteAt value 0]

def append32 (value : BitVec 32) : List Byte :=
  [byteAt value 24, byteAt value 16, byteAt value 8, byteAt value 0]

def append64 (value : BitVec 64) : List Byte :=
  append32 ((value >>> 32).setWidth 32) ++ append32 (value.setWidth 32)

def appendBool (value : Bool) : List Byte := if value then [1] else [0]

def extract8 (buff : Memory) : BitVec 8 := buff 0

def extract16 (buff : Memory) : BitVec 16 :=
  (buff 1).setWidth 16 + ((buff 0).setWidth 16 <<< 8)

def extract32 (buff : Memory) : BitVec 32 :=
  (buff 3).setWidth 32 + ((buff 2).setWidth 32 <<< 8) + ((buff 1).setWidth 32 <<< 16) +
    ((buff 0).setWidth 32 <<< 24)

def extract64 (buff : Memory) : BitVec 64 :=
  (extract32 (buff.drop 4)).setWidth 64 + ((extract32 buff).setWidth 64 <<< 32)

def extractBool (buff : Memory) : Bool := buff 0 == 1

theorem toNat_byteAt {w : ℕ} (value : BitVec w) (k : ℕ) (hw : 8 ≤ w) :
    (byteAt value k).toNat = value.toNat / 2 ^ k % 256 := by
  have hmask : (0xff : BitVec w).toNat = 2 ^ 8 - 1 := by
    have hlt : 255 < 2 ^ w := lt_of_lt_of_le (by norm_num) (Nat.pow_le_pow_right two_pos hw)
    exact Nat.mod_eq_of_lt hlt
  rw [byteAt, BitVec.toNat_setWidth, BitVec.toNat_and, hmask, Nat.and_two_pow_sub_one_eq_mod,
    BitVec.toNat_ushiftRight, Nat.shiftRight_eq_div_pow]
  norm_num

theorem extract16_append {m : Memory} {v : BitVec 16} (h : m.Starts (append16 v)) :
    extract16 m = v := by
  obtain ⟨h0, h1⟩ : m 0 = byteAt v 8 ∧ m 1 = byteAt v 0 := by
    simpa [append16, Memory.starts_cons, Memory.Starts.nil] using h
  apply BitVec.eq_of_toNat_eq
  have hv := v.isLt
  simp only [extract16, h0, h1, BitVec.toNat_add, BitVec.toNat_shiftLeft, BitVec.toNat_setWidth,
    toNat_byteAt v _ (show 8 ≤ 16 by decide), Nat.shiftLeft_eq]
  omega

theorem toNat_extract32 (m : Memory) :
    (extract32 m).toNat =
      (m 0).toNat * 2 ^ 24 + (m 1).toNat * 2 ^ 16 + (m 2).toNat * 2 ^ 8 + (m 3).toNat := by
  have h0 := (m 0).isLt
  have h1 := (m 1).isLt
  have h2 := (m 2).isLt
  have h3 := (m 3).isLt
  simp only [extract32, BitVec.toNat_add, BitVec.toNat_shiftLeft, BitVec.toNat_setWidth,
    Nat.shiftLeft_eq]
  omega

theorem extract32_append {m : Memory} {v : BitVec 32} (h : m.Starts (append32 v)) :
    extract32 m = v := by
  obtain ⟨h0, h1, h2, h3⟩ : m 0 = byteAt v 24 ∧ m 1 = byteAt v 16 ∧ m 2 = byteAt v 8 ∧
      m 3 = byteAt v 0 := by
    simpa [append32, Memory.starts_cons, Memory.Starts.nil] using h
  apply BitVec.eq_of_toNat_eq
  have hv := v.isLt
  simp only [extract32, h0, h1, h2, h3, BitVec.toNat_add, BitVec.toNat_shiftLeft,
    BitVec.toNat_setWidth, toNat_byteAt v _ (show 8 ≤ 32 by decide), Nat.shiftLeft_eq]
  omega

theorem extract64_append {m : Memory} {v : BitVec 64} (h : m.Starts (append64 v)) :
    extract64 m = v := by
  obtain ⟨hhigh, hlow⟩ := Memory.starts_append.mp h
  apply BitVec.eq_of_toNat_eq
  have hv := v.isLt
  have hlen : (append32 ((v >>> 32).setWidth 32)).length = 4 := rfl
  rw [hlen] at hlow
  simp only [extract64, extract32_append hhigh, extract32_append hlow, BitVec.toNat_add,
    BitVec.toNat_shiftLeft, BitVec.toNat_setWidth, BitVec.toNat_ushiftRight, Nat.shiftLeft_eq,
    Nat.shiftRight_eq_div_pow]
  omega

theorem extractBool_append {m : Memory} {v : Bool} (h : m.Starts (appendBool v)) :
    extractBool m = v := by
  cases v with
  | false =>
    have h0 : m 0 = 0 := (Memory.starts_cons.mp h).1
    rw [extractBool, h0]
    rfl
  | true =>
    have h0 : m 0 = 1 := (Memory.starts_cons.mp h).1
    rw [extractBool, h0]
    rfl

/-! ## Scalars -/

def append : (ty : Scalar) → ty.Val → List Byte
  | .uint8, v | .int8, v => append8 v
  | .uint16, v | .int16, v => append16 v
  | .uint32, v | .int32, v | .float, v => append32 v
  | .uint64, v | .int64, v | .double, v => append64 v
  | .bool, v => appendBool v
  | .complexFloat, v => append32 v.1 ++ append32 v.2
  | .complexDouble, v => append64 v.1 ++ append64 v.2

def extract : (ty : Scalar) → Memory → ty.Val
  | .uint8, buff | .int8, buff => extract8 buff
  | .uint16, buff | .int16, buff => extract16 buff
  | .uint32, buff | .int32, buff | .float, buff => extract32 buff
  | .uint64, buff | .int64, buff | .double, buff => extract64 buff
  | .bool, buff => extractBool buff
  | .complexFloat, buff => (extract32 buff, extract32 (buff.drop 4))
  | .complexDouble, buff => (extract64 buff, extract64 (buff.drop 8))

@[simp] theorem length_append (ty : Scalar) (v : ty.Val) : (append ty v).length = ty.size := by
  cases ty with
  | bool => cases v <;> rfl
  | _ => rfl

theorem extract_append {ty : Scalar} {v : ty.Val} {m : Memory} (h : m.Starts (append ty v)) :
    extract ty m = v := by
  cases ty with
  | uint8 | int8 => exact (Memory.starts_cons.mp h).1
  | uint16 | int16 => exact extract16_append h
  | uint32 | int32 | float => exact extract32_append h
  | uint64 | int64 | double => exact extract64_append h
  | bool => exact extractBool_append h
  | complexFloat =>
    obtain ⟨hre, him⟩ := Memory.starts_append.mp h
    exact Prod.ext (extract32_append hre) (extract32_append him)
  | complexDouble =>
    obtain ⟨hre, him⟩ := Memory.starts_append.mp h
    exact Prod.ext (extract64_append hre) (extract64_append him)

/-! ## Tuples -/

/-- A scalar with its type. -/
structure Datum where
  ty : Scalar
  val : ty.Val
  deriving DecidableEq

/-- `required_buffer_size<Tp...>()`. -/
def requiredBufferSize : List Scalar → ℕ
  | [] => 0
  | ty :: tys => ty.size + requiredBufferSize tys

/-- `deserialize<position, Tp...>`. -/
def deserialize (position : ℕ) : List Scalar → Memory → List Datum
  | [], _ => []
  | ty :: tys, buff =>
    ⟨ty, extract ty (buff.drop position)⟩ :: deserialize (position + ty.size) tys buff

/-- The tuple as bytes. -/
def serialize (ds : List Datum) : List Byte := ds.flatMap fun d => append d.ty d.val

@[simp] theorem serialize_nil : serialize [] = [] := rfl

@[simp] theorem serialize_cons (d : Datum) (ds : List Datum) :
    serialize (d :: ds) = append d.ty d.val ++ serialize ds := rfl

@[simp] theorem serialize_append (ds es : List Datum) :
    serialize (ds ++ es) = serialize ds ++ serialize es := List.flatMap_append

@[simp] theorem length_serialize (ds : List Datum) :
    (serialize ds).length = requiredBufferSize (ds.map Datum.ty) := by
  induction ds with
  | nil => rfl
  | cons d ds ih => rw [serialize_cons, List.length_append, length_append, ih]; rfl

theorem deserialize_serialize {position : ℕ} {ds : List Datum} {buff : Memory}
    (h : (buff.drop position).Starts (serialize ds)) :
    deserialize position (ds.map Datum.ty) buff = ds := by
  induction ds generalizing position with
  | nil => rfl
  | cons d ds ih =>
    obtain ⟨hd, hds⟩ := Memory.starts_append.mp h
    rw [length_append, Memory.drop_drop] at hds
    rw [List.map_cons, deserialize, extract_append hd, ih hds]

/-! ## Elements in memory -/

/-- The bytes of an object of a little-endian host. -/
def image : (ty : Scalar) → ty.Val → List Byte
  | .uint8, v | .int8, v => leBytes 1 v.toNat
  | .uint16, v | .int16, v => leBytes 2 v.toNat
  | .uint32, v | .int32, v | .float, v => leBytes 4 v.toNat
  | .uint64, v | .int64, v | .double, v => leBytes 8 v.toNat
  | .bool, v => appendBool v
  | .complexFloat, v => leBytes 4 v.1.toNat ++ leBytes 4 v.2.toNat
  | .complexDouble, v => leBytes 8 v.1.toNat ++ leBytes 8 v.2.toNat

/-- The object with these bytes. -/
def ofImage : (ty : Scalar) → Memory → ty.Val
  | .uint8, m | .int8, m => BitVec.ofNat 8 (ofLeBytes (m.take 1))
  | .uint16, m | .int16, m => BitVec.ofNat 16 (ofLeBytes (m.take 2))
  | .uint32, m | .int32, m | .float, m => BitVec.ofNat 32 (ofLeBytes (m.take 4))
  | .uint64, m | .int64, m | .double, m => BitVec.ofNat 64 (ofLeBytes (m.take 8))
  | .bool, m => m 0 != 0
  | .complexFloat, m =>
    (BitVec.ofNat 32 (ofLeBytes (m.take 4)), BitVec.ofNat 32 (ofLeBytes ((m.drop 4).take 4)))
  | .complexDouble, m =>
    (BitVec.ofNat 64 (ofLeBytes (m.take 8)), BitVec.ofNat 64 (ofLeBytes ((m.drop 8).take 8)))

/-- `n` elements one after the other. -/
def readElems (ty : Scalar) : ℕ → Memory → List ty.Val
  | 0, _ => []
  | n + 1, m => ofImage ty m :: readElems ty n (m.drop ty.size)

def images (ty : Scalar) (es : List ty.Val) : List Byte := es.flatMap (image ty)

@[simp] theorem length_image (ty : Scalar) (v : ty.Val) : (image ty v).length = ty.size := by
  cases ty with
  | bool => cases v <;> rfl
  | _ => simp [image, Scalar.size]

theorem ofNat_ofLeBytes {n : ℕ} {m : Memory} {v : BitVec (8 * n)}
    (h : m.Starts (leBytes n v.toNat)) : BitVec.ofNat (8 * n) (ofLeBytes (m.take n)) = v := by
  have htake : m.take n = leBytes n v.toNat := by
    simpa [Memory.Starts] using h
  have hlt : v.toNat < 256 ^ n := by
    have hv := v.isLt
    rwa [pow_mul] at hv
  rw [htake, ofLeBytes_leBytes hlt, BitVec.ofNat_toNat, BitVec.setWidth_eq]

theorem ofImage_image {ty : Scalar} {v : ty.Val} {m : Memory} (h : m.Starts (image ty v)) :
    ofImage ty m = v := by
  cases ty with
  | uint8 | int8 => exact ofNat_ofLeBytes (n := 1) h
  | uint16 | int16 => exact ofNat_ofLeBytes (n := 2) h
  | uint32 | int32 | float => exact ofNat_ofLeBytes (n := 4) h
  | uint64 | int64 | double => exact ofNat_ofLeBytes (n := 8) h
  | bool =>
    cases v with
    | false =>
      have h0 : m 0 = 0 := (Memory.starts_cons.mp h).1
      rw [ofImage, h0]
      rfl
    | true =>
      have h0 : m 0 = 1 := (Memory.starts_cons.mp h).1
      rw [ofImage, h0]
      rfl
  | complexFloat =>
    obtain ⟨hre, him⟩ := Memory.starts_append.mp h
    rw [length_leBytes] at him
    exact Prod.ext (ofNat_ofLeBytes (n := 4) hre) (ofNat_ofLeBytes (n := 4) him)
  | complexDouble =>
    obtain ⟨hre, him⟩ := Memory.starts_append.mp h
    rw [length_leBytes] at him
    exact Prod.ext (ofNat_ofLeBytes (n := 8) hre) (ofNat_ofLeBytes (n := 8) him)

@[simp] theorem length_images (ty : Scalar) (es : List ty.Val) :
    (images ty es).length = es.length * ty.size := by
  induction es with
  | nil => simp [images]
  | cons e es ih =>
    have hcons : images ty (e :: es) = image ty e ++ images ty es := rfl
    rw [hcons, List.length_append, length_image, ih, List.length_cons, Nat.succ_mul, Nat.add_comm]

@[simp] theorem length_readElems (ty : Scalar) (n : ℕ) (m : Memory) :
    (readElems ty n m).length = n := by
  induction n generalizing m with
  | zero => rfl
  | succ n ih => exact congrArg (· + 1) (ih (m.drop ty.size))

theorem readElems_images {ty : Scalar} {es : List ty.Val} {m : Memory}
    (h : m.Starts (images ty es)) : readElems ty es.length m = es := by
  induction es generalizing m with
  | nil => rfl
  | cons e es ih =>
    obtain ⟨he, hes⟩ := Memory.starts_append.mp h
    rw [length_image] at hes
    rw [List.length_cons, readElems, ofImage_image he, ih hes]

end Koheron
