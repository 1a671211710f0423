-- SUMMARY: The scalar and tuple codecs of the C++ client, which are written a second time, against those of the server.
import FpgaAcoustic.Server.TupleCodec

/-!
# Codecs of the C++ client

The header of the client has its own copy of the codecs, without the complex
numbers. A byte is an `unsigned char` there, which an expression promotes to
`int`; the sums are of 32 bits and are cut off where they are returned.
-/

namespace Koheron.Serdes

open Bytes

/-! ## Scalars -/

/-- The types with an `append` and an `extract` in the client. -/
inductive Scalar
  | uint8
  | int8
  | uint16
  | int16
  | uint32
  | int32
  | uint64
  | int64
  | float
  | double
  | bool
  deriving DecidableEq, Repr

namespace Scalar

/-- `size_of<Tp>`; those of `float` and `double` are those of the integers. -/
def size : Scalar → ℕ
  | uint8 | int8 | bool => 1
  | uint16 | int16 => 2
  | uint32 | int32 | float => 4
  | uint64 | int64 | double => 8

/-- The type of this name in the server. -/
def server : Scalar → Koheron.Scalar
  | uint8 => .uint8
  | int8 => .int8
  | uint16 => .uint16
  | int16 => .int16
  | uint32 => .uint32
  | int32 => .int32
  | uint64 => .uint64
  | int64 => .int64
  | float => .float
  | double => .double
  | bool => .bool

/-- A value is the same in both. -/
abbrev Val (ty : Scalar) : Type := ty.server.Val

end Scalar

/-- The promotion of an `unsigned char` to `int`. -/
def promote (b : Byte) : BitVec 32 := b.setWidth 32

def extract8 (buff : Memory) : BitVec 8 := buff 0

def extract16 (buff : Memory) : BitVec 16 :=
  (promote (buff 1) + (promote (buff 0) <<< 8)).setWidth 16

def extract32 (buff : Memory) : BitVec 32 :=
  promote (buff 3) + (promote (buff 2) <<< 8) + (promote (buff 1) <<< 16) +
    (promote (buff 0) <<< 24)

def extract64 (buff : Memory) : BitVec 64 :=
  let u1 := extract32 buff
  let u2 := extract32 (buff.drop Scalar.uint32.size)
  u2.setWidth 64 + (u1.setWidth 64 <<< 32)

def extractBool (buff : Memory) : Bool := promote (buff 0) == 1

def append8 (value : BitVec 8) : List Byte := [value]

/-- The value is promoted as well. -/
def append16 (value : BitVec 16) : List Byte :=
  let value : BitVec 32 := value.setWidth 32
  [((value >>> 8) &&& 0xff).setWidth 8, (value &&& 0xff).setWidth 8]

def append32 (value : BitVec 32) : List Byte :=
  [((value >>> 24) &&& 0xff).setWidth 8, ((value >>> 16) &&& 0xff).setWidth 8,
    ((value >>> 8) &&& 0xff).setWidth 8, (value &&& 0xff).setWidth 8]

def append64 (value : BitVec 64) : List Byte :=
  append32 ((value >>> 32).setWidth 32) ++ append32 (value.setWidth 32)

def appendBool (value : Bool) : List Byte := if value then [1] else [0]

/-- `pseudo_cast` keeps the bits of a `float` or `double`. -/
def append : (ty : Scalar) → ty.Val → List Byte
  | .uint8, v | .int8, v => append8 v
  | .uint16, v | .int16, v => append16 v
  | .uint32, v | .int32, v | .float, v => append32 v
  | .uint64, v | .int64, v | .double, v => append64 v
  | .bool, v => appendBool v

def extract : (ty : Scalar) → Memory → ty.Val
  | .uint8, buff | .int8, buff => extract8 buff
  | .uint16, buff | .int16, buff => extract16 buff
  | .uint32, buff | .int32, buff | .float, buff => extract32 buff
  | .uint64, buff | .int64, buff | .double, buff => extract64 buff
  | .bool, buff => extractBool buff

/-! ## Tuples -/

structure Datum where
  ty : Scalar
  val : ty.Val

def Datum.server (d : Datum) : Koheron.Datum := ⟨d.ty.server, d.val⟩

def requiredBufferSize : List Scalar → ℕ
  | [] => 0
  | ty :: tys => ty.size + requiredBufferSize tys

def deserialize (position : ℕ) : List Scalar → Memory → List Datum
  | [], _ => []
  | ty :: tys, buff =>
    ⟨ty, extract ty (buff.drop position)⟩ :: deserialize (position + ty.size) tys buff

/-- `detail::serialize<buff_pos, I, Tp...>`, for the elements from `I` on. -/
def serializeAt (buffPos : ℕ) : List Datum → Memory → Memory
  | [], buff => buff
  | d :: ds, buff => serializeAt (buffPos + d.ty.size) ds (buff.writeAt buffPos (append d.ty d.val))

/-- `serialize`: the array, of which `arr` is the memory before it is written. -/
def serializeArray (ds : List Datum) (arr : Memory) : List Byte :=
  (serializeAt 0 ds arr).take (requiredBufferSize (ds.map Datum.ty))

/-! ## Specification -/

/-- What is promised of tuples. -/
structure TupleCodec : Prop where
  deserialize_serialize : ∀ (ds : List Koheron.Datum) (arr buff : Memory) (position : ℕ),
    (buff.drop position).Starts (Koheron.serializeArray ds arr) →
      Koheron.deserialize position (ds.map Koheron.Datum.ty) buff = ds
  touches : ∀ ds : List Koheron.Datum,
    Touches (Koheron.serializeAt 0 ds) (Koheron.requiredBufferSize (ds.map Koheron.Datum.ty))
  serialize_deserialize : ∀ (tys : List Koheron.Scalar) (bs : List Byte) (arr buff : Memory)
    (position : ℕ), bs.length = Koheron.requiredBufferSize tys → BoolBytes tys bs →
      (buff.drop position).Starts bs →
        Koheron.serializeArray (Koheron.deserialize position tys buff) arr = bs
  client_size : ∀ tys : List Scalar,
    requiredBufferSize tys = Koheron.requiredBufferSize (tys.map Scalar.server)
  client_array : ∀ (ds : List Datum) (arr : Memory),
    serializeArray ds arr = Koheron.serializeArray (ds.map Datum.server) arr
  client_serialize : ∀ (ds : List Datum) (buffPos : ℕ) (buff : Memory),
    serializeAt buffPos ds buff = Koheron.serializeAt buffPos (ds.map Datum.server) buff
  client_deserialize : ∀ (tys : List Scalar) (position : ℕ) (buff : Memory),
    (deserialize position tys buff).map Datum.server =
      Koheron.deserialize position (tys.map Scalar.server) buff

/-! ## The two copies -/

theorem size_eq (ty : Scalar) : ty.size = ty.server.size := by
  cases ty <;> rfl

theorem toNat_promote (b : Byte) : (promote b).toNat = b.toNat := by
  have hb := b.isLt
  rw [promote, BitVec.toNat_setWidth]
  omega

/-- The sum in 32 bits has no carry out of 16. -/
theorem extract16_eq (m : Memory) : extract16 m = Koheron.extract16 m := by
  have h0 := (m 0).isLt
  have h1 := (m 1).isLt
  apply BitVec.eq_of_toNat_eq
  simp only [extract16, Koheron.extract16, BitVec.toNat_setWidth, BitVec.toNat_add,
    BitVec.toNat_shiftLeft, toNat_promote, Nat.shiftLeft_eq]
  omega

theorem extract32_eq (m : Memory) : extract32 m = Koheron.extract32 m := rfl

theorem extract64_eq (m : Memory) : extract64 m = Koheron.extract64 m := rfl

theorem extractBool_eq (m : Memory) : extractBool m = Koheron.extractBool m := by
  rw [extractBool, Koheron.extractBool, Bool.eq_iff_iff, beq_iff_eq, beq_iff_eq,
    ← BitVec.toNat_inj, ← BitVec.toNat_inj, toNat_promote]
  rfl

theorem append16_eq (v : BitVec 16) : append16 v = Koheron.append16 v := by
  have hv := v.isLt
  have hvalue : (v.setWidth 32).toNat = v.toNat := by
    rw [BitVec.toNat_setWidth]
    omega
  have hbyte : ∀ k, byteAt (v.setWidth 32) k = byteAt v k := by
    intro k
    rw [← BitVec.toNat_inj, toNat_byteAt _ _ (by decide), toNat_byteAt _ _ (by decide), hvalue]
  have hlow : (v.setWidth 32 &&& 0xff).setWidth 8 = byteAt (v.setWidth 32) 0 := by
    rw [byteAt, BitVec.ushiftRight_zero]
  show [byteAt (v.setWidth 32) 8, (v.setWidth 32 &&& 0xff).setWidth 8] = [byteAt v 8, byteAt v 0]
  rw [hlow, hbyte, hbyte]

theorem append32_eq (v : BitVec 32) : append32 v = Koheron.append32 v := by
  have hlow : (v &&& 0xff).setWidth 8 = byteAt v 0 := by
    rw [byteAt, BitVec.ushiftRight_zero]
  show [byteAt v 24, byteAt v 16, byteAt v 8, (v &&& 0xff).setWidth 8] = _
  rw [hlow, Koheron.append32]

theorem append64_eq (v : BitVec 64) : append64 v = Koheron.append64 v := by
  rw [append64, Koheron.append64, append32_eq, append32_eq]

theorem append_eq (ty : Scalar) (v : ty.Val) : append ty v = Koheron.append ty.server v := by
  cases ty with
  | uint8 | int8 => rfl
  | uint16 | int16 => exact append16_eq v
  | uint32 | int32 | float => exact append32_eq v
  | uint64 | int64 | double => exact append64_eq v
  | bool => rfl

theorem extract_eq (ty : Scalar) (m : Memory) : extract ty m = Koheron.extract ty.server m := by
  cases ty with
  | uint8 | int8 => rfl
  | uint16 | int16 => exact extract16_eq m
  | uint32 | int32 | float => exact extract32_eq m
  | uint64 | int64 | double => exact extract64_eq m
  | bool => exact extractBool_eq m

theorem requiredBufferSize_eq (tys : List Scalar) :
    requiredBufferSize tys = Koheron.requiredBufferSize (tys.map Scalar.server) := by
  induction tys with
  | nil => rfl
  | cons ty tys ih =>
    rw [requiredBufferSize, ih, size_eq]
    rfl

theorem serializeAt_server (ds : List Datum) (buffPos : ℕ) (buff : Memory) :
    serializeAt buffPos ds buff = Koheron.serializeAt buffPos (ds.map Datum.server) buff := by
  induction ds generalizing buffPos buff with
  | nil => rfl
  | cons d ds ih =>
    rw [serializeAt, ih, append_eq, size_eq]
    rfl

theorem deserialize_server (tys : List Scalar) (position : ℕ) (buff : Memory) :
    (deserialize position tys buff).map Datum.server =
      Koheron.deserialize position (tys.map Scalar.server) buff := by
  induction tys generalizing position with
  | nil => rfl
  | cons ty tys ih =>
    rw [deserialize, List.map_cons, ih, size_eq, List.map_cons, Koheron.deserialize, Datum.server,
      extract_eq]

theorem serializeArray_server (ds : List Datum) (arr : Memory) :
    serializeArray ds arr = Koheron.serializeArray (ds.map Datum.server) arr := by
  have htypes : (ds.map Datum.ty).map Scalar.server =
      (ds.map Datum.server).map Koheron.Datum.ty := by
    rw [List.map_map, List.map_map]
    rfl
  rw [serializeArray, Koheron.serializeArray, serializeAt_server, requiredBufferSize_eq, htypes]

/-- Writing and reading a tuple are inverse to each other, and the client writes
and reads the bytes of the server. -/
theorem tupleCodec : TupleCodec where
  deserialize_serialize ds arr buff position h := by
    rw [serializeArray_eq] at h
    exact Koheron.deserialize_serialize h
  touches := serializeAt_touches
  serialize_deserialize tys bs arr buff position hlen hbool h := by
    rw [serializeArray_eq]
    exact Koheron.serialize_deserialize hlen hbool h
  client_size := requiredBufferSize_eq
  client_array := serializeArray_server
  client_serialize := serializeAt_server
  client_deserialize := deserialize_server

end Koheron.Serdes
