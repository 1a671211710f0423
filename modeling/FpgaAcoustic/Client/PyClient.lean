-- SUMMARY: Requests as the Python client builds them, and when the server reads them back.
import FpgaAcoustic.Bytes.Utf8
import FpgaAcoustic.Server.Payload
import FpgaAcoustic.Server.Tcp
import Mathlib.Tactic.Positivity
import Mathlib.Tactic.Zify

/-!
# Python client

`build_payload` goes through the parameter types and the arguments together.
An argument that makes it raise has no payload in the model.
-/

namespace Koheron.PyClient

open Bytes

/-! ## Arguments -/

/-- An array with at least one dimension. The elements are in C order, which is
the order of `bytearray(array)`. -/
structure NdArray where
  dtype : Scalar
  len : ℕ
  dims : List ℕ
  elems : List dtype.Val
  size_eq : elems.length = len * dims.prod

inductive Arg
  | int (n : ℤ)
  | bool (b : Bool)
  | float (bits : BitVec 64)
  | str (s : List Char)
  | ndarray (a : NdArray)

/-- The results of library functions that may raise: `struct.pack('>f', _)` and
`struct.pack('>d', _)`, and the truth value of an array. -/
structure Libs where
  packFloat : Arg → Option (BitVec 32)
  packDouble : Arg → Option (BitVec 64)
  arrayTruth : NdArray → Option Bool

/-- The integer in a value that has `>>`. -/
def Arg.asInt : Arg → Option ℤ
  | .int n => some n
  | .bool b => some (if b then 1 else 0)
  | _ => none

/-- `bool(arg)`. Both zeros are false. -/
def Arg.truth (libs : Libs) : Arg → Option Bool
  | .int n => some (n != 0)
  | .bool b => some b
  | .float bits => some (bits.setWidth 63 != 0#63)
  | .str s => some !s.isEmpty
  | .ndarray a => libs.arrayTruth a

/-! ## Payloads -/

/-- `append(buff, value, size)`, for `size <= 4`. -/
def appendLow (value : ℤ) (size : ℕ) : List Byte :=
  (List.range size).reverse.map fun i => BitVec.ofInt 8 (value >>> (8 * i : ℕ))

/-- `append(buff, value, size)`. -/
def append (value : ℤ) (size : ℕ) : List Byte :=
  if size ≤ 4 then appendLow value size
  else if size = 8 then appendLow (value >>> (32 : ℕ)) 4 ++ appendLow value 4
  else []

def floatToBits (libs : Libs) (f : Arg) : Option ℤ := (libs.packFloat f).map BitVec.toInt

def doubleToBits (libs : Libs) (d : Arg) : Option ℤ := (libs.packDouble d).map BitVec.toInt

/-- `cpp_to_np_types`. A type is named by the scalar it has as its elements. -/
def cppToNpTypes : Scalar → Option Scalar
  | .complexFloat | .complexDouble => none
  | ty => some ty

def appendVector (ty : Scalar) : Arg → Option (List Byte)
  | .ndarray a =>
    if cppToNpTypes ty ≠ some a.dtype then none
    else
      let arrBytes := images a.dtype a.elems
      some (append arrBytes.length 4 ++ arrBytes)
  | _ => none

def appendArray (ty : Scalar) (n : ℕ) : Arg → Option (List Byte)
  | .ndarray a =>
    if n ≠ a.len then none
    else if cppToNpTypes ty ≠ some a.dtype then none
    else some (images a.dtype a.elems)
  | _ => none

/-- The branch of `build_payload` for a parameter type. -/
def buildArg (libs : Libs) : ArgType → Arg → Option (List Byte)
  | .scalar .uint8, arg | .scalar .int8, arg => arg.asInt.map (append · 1)
  | .scalar .uint16, arg | .scalar .int16, arg => arg.asInt.map (append · 2)
  | .scalar .uint32, arg | .scalar .int32, arg => arg.asInt.map (append · 4)
  | .scalar .uint64, arg | .scalar .int64, arg => arg.asInt.map (append · 8)
  | .scalar .float, arg => (floatToBits libs arg).map (append · 4)
  | .scalar .double, arg => (doubleToBits libs arg).map (append · 8)
  | .scalar .bool, arg => (arg.truth libs).map fun b => if b then append 1 1 else append 0 1
  | .scalar .complexFloat, _ | .scalar .complexDouble, _ => none
  | .array ty n, arg => appendArray ty n arg
  | .vector ty, arg => appendVector ty arg
  | .string, .str s => some (append s.length 4 ++ utf8 s)
  | .string, _ => none

/-- `build_payload(cmd_args, args)`. -/
def buildPayload (libs : Libs) : List ArgType → List Arg → Option (List Byte)
  | [], [] => some []
  | ty :: cmdArgs, arg :: args =>
    match buildArg libs ty arg, buildPayload libs cmdArgs args with
    | some bytes, some payload => some (bytes ++ payload)
    | _, _ => none
  | _, _ => none

/-- `make_command(driver_id, op_id, cmd_args, *args)`. -/
def makeCommand (libs : Libs) (driverId opId : BitVec 16) (cmdArgs : List ArgType)
    (args : List Arg) : Option (List Byte) :=
  (buildPayload libs cmdArgs args).map fun payload =>
    append 0 4 ++ append driverId.toNat 2 ++ append opId.toNat 2 ++ payload

/-! ## The values that arguments stand for -/

/-- The number in a value of an integer type. -/
def intVal : (ty : Scalar) → ty.Val → Option ℤ
  | .uint8, v | .uint16, v | .uint32, v | .uint64, v => some v.toNat
  | .int8, v | .int16, v | .int32, v | .int64, v => some v.toInt
  | _, _ => none

/-- The argument a driver method is to see for what the caller passed. -/
inductive Denotes (libs : Libs) : ArgType → Arg → Value → Prop
  | int {ty : Scalar} {arg : Arg} {v : ty.Val} {n : ℤ} (harg : arg.asInt = some n)
      (hv : intVal ty v = some n) : Denotes libs (.scalar ty) arg (.scalar ⟨ty, v⟩)
  | float {arg : Arg} {v : BitVec 32} (h : libs.packFloat arg = some v) :
      Denotes libs (.scalar .float) arg (.scalar ⟨.float, v⟩)
  | double {arg : Arg} {v : BitVec 64} (h : libs.packDouble arg = some v) :
      Denotes libs (.scalar .double) arg (.scalar ⟨.double, v⟩)
  | bool {arg : Arg} {b : Bool} (h : arg.truth libs = some b) :
      Denotes libs (.scalar .bool) arg (.scalar ⟨.bool, b⟩)
  | array {a : NdArray} {n : ℕ} (h : a.elems.length = n) :
      Denotes libs (.array a.dtype n) (.ndarray a) (.array a.dtype a.elems)
  | vector {a : NdArray} : Denotes libs (.vector a.dtype) (.ndarray a) (.vector a.dtype a.elems)
  | string {s : List Char} : Denotes libs .string (.str s) (.string (utf8 s))

def isInteger : Scalar → Bool
  | .bool | .float | .double | .complexFloat | .complexDouble => false
  | _ => true

/-- An integer argument is in the range of its type. -/
def InRange : ArgType → Arg → Prop
  | .scalar ty, arg => isInteger ty → ∀ n, arg.asInt = some n → ∃ v, intVal ty v = some n
  | _, _ => True

/-- What has to hold of an argument: an array has the elements of its parameter
and no more, a string has one byte for each character, and the number of bytes
is not negative as an `int`. -/
def Intact : ArgType → Arg → Prop
  | .array ty n, .ndarray a => a.elems.length = n ∧ 0 ≤ toInt32 (n * ty.size : ℕ)
  | .vector ty, .ndarray a => a.elems.length * ty.size < 2 ^ 31
  | .string, .str s => (∀ c ∈ s, c.val ≤ 127) ∧ s.length < 2 ^ 31
  | _, _ => True

/-! ## Integers as bytes -/

theorem byteAt_ofInt {w k : ℕ} (value : ℤ) (hk : k + 8 ≤ w) :
    byteAt (BitVec.ofInt w value) k = BitVec.ofInt 8 (value >>> k) := by
  obtain ⟨j, rfl⟩ := Nat.exists_eq_add_of_le hk
  -- What the width cuts off is a multiple of 256 after the shift.
  have hsplit : value / 2 ^ k =
      value % 2 ^ (k + 8 + j) / 2 ^ k + 256 * (2 ^ j * (value / 2 ^ (k + 8 + j))) := by
    have hpow : (2 : ℤ) ^ (k + 8 + j) * (value / 2 ^ (k + 8 + j)) =
        2 ^ k * (256 * (2 ^ j * (value / 2 ^ (k + 8 + j)))) := by
      ring
    conv_lhs => rw [← Int.emod_add_mul_ediv value (2 ^ (k + 8 + j)), hpow]
    exact Int.add_mul_ediv_left _ _ (by positivity)
  apply BitVec.eq_of_toNat_eq
  zify
  rw [toNat_byteAt _ _ (by omega), BitVec.toNat_ofInt, BitVec.toNat_ofInt,
    Int.shiftRight_eq_div_pow]
  push_cast
  rw [Int.toNat_of_nonneg (Int.emod_nonneg _ (by positivity)),
    Int.toNat_of_nonneg (Int.emod_nonneg _ (by positivity)), hsplit, Int.add_mul_emod_self_left]

theorem append_one (value : ℤ) : append value 1 = append8 (BitVec.ofInt 8 value) := by
  show [BitVec.ofInt 8 (value >>> (0 : ℕ))] = [BitVec.ofInt 8 value]
  rw [Int.shiftRight_zero]

theorem append_two (value : ℤ) : append value 2 = append16 (BitVec.ofInt 16 value) := by
  rw [append16, byteAt_ofInt value (by decide), byteAt_ofInt value (by decide)]
  rfl

theorem append_four (value : ℤ) : append value 4 = append32 (BitVec.ofInt 32 value) := by
  rw [append32, byteAt_ofInt value (by decide), byteAt_ofInt value (by decide),
    byteAt_ofInt value (by decide), byteAt_ofInt value (by decide)]
  rfl

theorem append_eight (value : ℤ) : append value 8 = append64 (BitVec.ofInt 64 value) := by
  have hsplit : append value 8 = append (value >>> (32 : ℕ)) 4 ++ append value 4 := rfl
  have hhigh : ((BitVec.ofInt 64 value) >>> 32).setWidth 32 =
      BitVec.ofInt 32 (value >>> (32 : ℕ)) := by
    apply BitVec.eq_of_toNat_eq
    simp only [BitVec.toNat_setWidth, BitVec.toNat_ushiftRight, BitVec.toNat_ofInt,
      Nat.shiftRight_eq_div_pow, Int.shiftRight_eq_div_pow]
    omega
  have hlow : (BitVec.ofInt 64 value).setWidth 32 = BitVec.ofInt 32 value := by
    apply BitVec.eq_of_toNat_eq
    simp only [BitVec.toNat_setWidth, BitVec.toNat_ofInt]
    omega
  rw [hsplit, append_four, append_four, append64, hhigh, hlow]

theorem ofInt_toNat {w : ℕ} (v : BitVec w) : BitVec.ofInt w v.toNat = v := by
  rw [BitVec.ofInt_natCast, BitVec.ofNat_toNat, BitVec.setWidth_eq]

/-- A number in the range of its type is sent as the value of that type. -/
theorem append_intVal {ty : Scalar} {v : ty.Val} {n : ℤ} (h : intVal ty v = some n) :
    append n ty.size = Koheron.append ty v := by
  cases ty with
  | uint8 =>
    obtain rfl := Option.some.inj h
    exact (append_one _).trans (congrArg append8 (ofInt_toNat v))
  | uint16 =>
    obtain rfl := Option.some.inj h
    exact (append_two _).trans (congrArg append16 (ofInt_toNat v))
  | uint32 =>
    obtain rfl := Option.some.inj h
    exact (append_four _).trans (congrArg append32 (ofInt_toNat v))
  | uint64 =>
    obtain rfl := Option.some.inj h
    exact (append_eight _).trans (congrArg append64 (ofInt_toNat v))
  | int8 =>
    obtain rfl := Option.some.inj h
    exact (append_one _).trans (congrArg append8 BitVec.ofInt_toInt)
  | int16 =>
    obtain rfl := Option.some.inj h
    exact (append_two _).trans (congrArg append16 BitVec.ofInt_toInt)
  | int32 =>
    obtain rfl := Option.some.inj h
    exact (append_four _).trans (congrArg append32 BitVec.ofInt_toInt)
  | int64 =>
    obtain rfl := Option.some.inj h
    exact (append_eight _).trans (congrArg append64 BitVec.ofInt_toInt)
  | float | double | bool | complexFloat | complexDouble => simp [intVal] at h

/-! ## Payloads of values -/

/-- A value as the client sends it: the length of a string is its number of
characters. -/
def pyWire : Value → List Byte
  | .string bytes => append32 (BitVec.ofNat 32 (codePoints bytes)) ++ bytes
  | v => v.wire

variable {libs : Libs}

theorem buildArg_int {ty : Scalar} {arg : Arg} (hty : isInteger ty) :
    buildArg libs (.scalar ty) arg = arg.asInt.map (append · ty.size) := by
  cases ty with
  | float | double | bool | complexFloat | complexDouble => simp [isInteger] at hty
  | _ => rfl

theorem isInteger_of_intVal {ty : Scalar} {v : ty.Val} {n : ℤ} (h : intVal ty v = some n) :
    isInteger ty := by
  cases ty with
  | float | double | bool | complexFloat | complexDouble => simp [intVal] at h
  | _ => rfl

theorem type_of_denotes {ty : ArgType} {arg : Arg} {v : Value} (hd : Denotes libs ty arg v) :
    v.type = ty := by
  cases hd with
  | array h => rw [Value.type, h]
  | _ => rfl

theorem buildArg_of_denotes {ty : ArgType} {arg : Arg} {v : Value} {bytes : List Byte}
    (hd : Denotes libs ty arg v) (hb : buildArg libs ty arg = some bytes) : bytes = pyWire v := by
  cases hd with
  | int harg hv =>
    rw [buildArg_int (isInteger_of_intVal hv), harg] at hb
    rw [← Option.some.inj hb]
    exact append_intVal hv
  | float h =>
    rw [buildArg, floatToBits, h] at hb
    rw [← Option.some.inj hb]
    exact (append_four _).trans (congrArg append32 BitVec.ofInt_toInt)
  | double h =>
    rw [buildArg, doubleToBits, h] at hb
    rw [← Option.some.inj hb]
    exact (append_eight _).trans (congrArg append64 BitVec.ofInt_toInt)
  | @bool _ b h =>
    rw [buildArg, h] at hb
    rw [← Option.some.inj hb]
    cases b <;> rfl
  | array h =>
    simp only [buildArg, appendArray] at hb
    split_ifs at hb
    exact (Option.some.inj hb).symm
  | vector =>
    simp only [buildArg, appendVector] at hb
    split_ifs at hb
    rw [← Option.some.inj hb, append_four, BitVec.ofInt_natCast]
    rfl
  | string =>
    rw [← Option.some.inj hb, append_four, BitVec.ofInt_natCast, ← codePoints_utf8]
    rfl

theorem dtype_eq {ty dtype : Scalar} (h : cppToNpTypes ty = some dtype) : dtype = ty := by
  cases ty with
  | complexFloat | complexDouble => simp [cppToNpTypes] at h
  | _ => exact (Option.some.inj h).symm

/-- What is accepted denotes a value, but for an array of the wrong size. -/
theorem exists_denotes {ty : ArgType} {arg : Arg} {bytes : List Byte}
    (hb : buildArg libs ty arg = some bytes) (hrange : InRange ty arg) (hintact : Intact ty arg) :
    ∃ v, Denotes libs ty arg v := by
  cases ty with
  | scalar ty =>
    by_cases hty : isInteger ty
    · rw [buildArg_int hty] at hb
      obtain ⟨n, hn, -⟩ := Option.map_eq_some_iff.mp hb
      obtain ⟨v, hv⟩ := hrange hty n hn
      exact ⟨_, .int hn hv⟩
    · cases ty with
      | float =>
        obtain ⟨_, hbits, -⟩ := Option.map_eq_some_iff.mp hb
        obtain ⟨v, hv, -⟩ := Option.map_eq_some_iff.mp hbits
        exact ⟨_, .float hv⟩
      | double =>
        obtain ⟨_, hbits, -⟩ := Option.map_eq_some_iff.mp hb
        obtain ⟨v, hv, -⟩ := Option.map_eq_some_iff.mp hbits
        exact ⟨_, .double hv⟩
      | bool =>
        obtain ⟨b, htruth, -⟩ := Option.map_eq_some_iff.mp hb
        exact ⟨_, .bool htruth⟩
      | complexFloat | complexDouble => simp [buildArg] at hb
      | _ => exact absurd rfl hty
  | array ty n =>
    cases arg with
    | ndarray a =>
      simp only [buildArg, appendArray] at hb
      split_ifs at hb with hlen hty
      obtain rfl := dtype_eq (not_not.mp hty)
      exact ⟨_, .array hintact.1⟩
    | _ => simp [buildArg, appendArray] at hb
  | vector ty =>
    cases arg with
    | ndarray a =>
      simp only [buildArg, appendVector] at hb
      split_ifs at hb with hty
      obtain rfl := dtype_eq (not_not.mp hty)
      exact ⟨_, .vector⟩
    | _ => simp [buildArg, appendVector] at hb
  | string =>
    cases arg with
    | str s => exact ⟨_, .string⟩
    | _ => simp [buildArg] at hb

/-- `Intact`, of the value that is sent. -/
def ValueIntact : Value → Prop
  | .scalar _ => True
  | .array ty es => 0 ≤ toInt32 (images ty es).length
  | .vector ty es => (images ty es).length < 2 ^ 31
  | .string bytes => codePoints bytes = bytes.length ∧ bytes.length < 2 ^ 31

theorem intact_iff {ty : ArgType} {arg : Arg} {v : Value} (hd : Denotes libs ty arg v) :
    Intact ty arg ↔ ValueIntact v := by
  cases hd with
  | @array a n h =>
    subst h
    rw [ValueIntact, length_images, Intact, and_iff_right rfl]
  | vector => rw [ValueIntact, length_images, Intact]
  | @string s =>
    rw [ValueIntact, codePoints_utf8, Intact, ← length_utf8_eq_iff, eq_comm]
    refine and_congr_right fun hlen => ?_
    rw [hlen]
  | _ => exact Iff.rfl

/-- The arguments of a call and the values that the driver is to see. -/
def DenotesAll (libs : Libs) (sig : List ArgType) (args : List Arg) (values : List Value) : Prop :=
  List.Forall₂ (fun p v => Denotes libs p.1 p.2 v) (sig.zip args) values

theorem buildPayload_cons {ty : ArgType} {sig : List ArgType} {args : List Arg}
    {payload : List Byte} (h : buildPayload libs (ty :: sig) args = some payload) :
    ∃ arg rest bytes payload', args = arg :: rest ∧ buildArg libs ty arg = some bytes ∧
      buildPayload libs sig rest = some payload' ∧ payload = bytes ++ payload' := by
  cases args with
  | nil => simp [buildPayload] at h
  | cons arg rest =>
    rw [buildPayload] at h
    rcases hb : buildArg libs ty arg with _ | bytes
    · simp [hb] at h
    · rcases hp : buildPayload libs sig rest with _ | payload'
      · simp [hb, hp] at h
      · simp only [hb, hp, Option.some.injEq] at h
        exact ⟨arg, rest, bytes, payload', rfl, hb, hp, h.symm⟩

theorem buildPayload_of_denotesAll {sig : List ArgType} {args : List Arg} {values : List Value}
    {payload : List Byte} (h : buildPayload libs sig args = some payload)
    (hd : DenotesAll libs sig args values) :
    payload = values.flatMap pyWire ∧ values.map Value.type = sig := by
  induction sig generalizing args values payload with
  | nil =>
    cases args with
    | nil =>
      obtain rfl := List.forall₂_nil_left_iff.mp hd
      exact ⟨(Option.some.inj h).symm, rfl⟩
    | cons arg args => simp [buildPayload] at h
  | cons ty sig ih =>
    obtain ⟨arg, rest, bytes, payload', rfl, hb, hp, rfl⟩ := buildPayload_cons h
    obtain ⟨v, values, hv, hvs, rfl⟩ := List.forall₂_cons_left_iff.mp hd
    obtain ⟨hpayload, htypes⟩ := ih hp hvs
    refine ⟨?_, ?_⟩
    · rw [buildArg_of_denotes hv hb, hpayload, List.flatMap_cons]
    · rw [List.map_cons, type_of_denotes hv, htypes]

theorem exists_denotesAll {sig : List ArgType} {args : List Arg} {payload : List Byte}
    (h : buildPayload libs sig args = some payload)
    (hrange : ∀ p ∈ sig.zip args, InRange p.1 p.2) (hintact : ∀ p ∈ sig.zip args, Intact p.1 p.2) :
    ∃ values, DenotesAll libs sig args values := by
  induction sig generalizing args payload with
  | nil => exact ⟨[], .nil⟩
  | cons ty sig ih =>
    obtain ⟨arg, rest, bytes, payload', rfl, hb, hp, rfl⟩ := buildPayload_cons h
    rw [List.zip_cons_cons, List.forall_mem_cons] at hrange hintact
    obtain ⟨v, hv⟩ := exists_denotes hb hrange.1 hintact.1
    obtain ⟨values, hvs⟩ := ih hp hrange.2 hintact.2
    exact ⟨v :: values, .cons hv hvs⟩

/-! ## Packs of values -/

def groupWire : Group → List Byte
  | .string bytes => pyWire (.string bytes)
  | g => g.wire

/-- `Intact`, of a pack. -/
def GroupIntact : Group → Prop
  | .scalars ds => 0 ≤ toInt32 (serialize ds).length
  | .array ty es => ValueIntact (.array ty es)
  | .vector ty es => ValueIntact (.vector ty es)
  | .string bytes => ValueIntact (.string bytes)

theorem flatMap_groupWire (values : List Value) :
    (groups [] values).flatMap groupWire = values.flatMap pyWire :=
  flatMap_groups (fun _ => rfl) (fun _ _ => rfl) (fun _ _ => rfl) (fun _ => rfl) [] values

theorem parsePack_intact {g : Group} (h : GroupIntact g) :
    Parser.Decodes Tcp.Ahead (Tcp.session.parsePack g.pack) (groupWire g) g.values := by
  cases g with
  | scalars ds => exact (Tcp.parsePack_complete (g := .scalars ds) trivial).1 h
  | array ty es => exact (Tcp.parsePack_complete (g := .array ty es) trivial).1 h
  | vector ty es =>
    have hlt : (images ty es).length < 2 ^ 31 := h
    have hsized : (Group.vector ty es).Sized := lt_trans hlt (by decide)
    refine (Tcp.parsePack_complete hsized).1 ?_
    rw [Group.body, toInt32_of_lt hlt]
    exact Int.natCast_nonneg _
  | string bytes =>
    obtain ⟨hascii, hlt⟩ : codePoints bytes = bytes.length ∧ bytes.length < 2 ^ 31 := h
    have hsized : (Group.string bytes).Sized := lt_trans hlt (by decide)
    have hwire : groupWire (.string bytes) = (Group.string bytes).wire := by
      rw [groupWire, pyWire, hascii]
      rfl
    rw [hwire]
    refine (Tcp.parsePack_complete hsized).1 ?_
    rw [Group.body, toInt32_of_lt hlt]
    exact Int.natCast_nonneg _

/-- A length field that does not fit the elements that are meant. -/
theorem vector_misreads {ty : Scalar} {es : List ty.Val} {n : BitVec 32}
    (h : n.toNat / ty.size ≠ es.length) (body : List Byte) :
    Parser.Misreads Tcp.Ahead (Tcp.session.parsePack (.vector ty)) (append32 n ++ body)
      [.vector ty es] := by
  intro s rest hs xs hxs ys zs heq
  rw [List.append_assoc] at hs
  have hlen := @Tcp.length_recvVector ty (s.next.1.vector ty) _ _ _ (Tcp.next_ahead hs)
  rw [checked_map_some hxs] at heq
  have hes : (Tcp.session.recvVector ty s).1.2 = es := by
    simpa using (List.cons.inj heq).1
  exact h (hlen.symm.trans (congrArg List.length hes))

theorem string_misreads {bytes : List Byte} {n : BitVec 32} (h : n.toNat ≠ bytes.length)
    (body : List Byte) :
    Parser.Misreads Tcp.Ahead (Tcp.session.parsePack .string) (append32 n ++ body)
      [.string bytes] := by
  intro s rest hs xs hxs ys zs heq
  rw [List.append_assoc] at hs
  have hlen := @Tcp.length_recvString s.next.1.string _ _ _ (Tcp.next_ahead hs)
  rw [checked_map_some hxs] at heq
  have hbytes : (Tcp.session.recvString s).1.2 = bytes := by
    simpa using (List.cons.inj heq).1
  exact h (hlen.symm.trans (congrArg List.length hbytes))

theorem parsePack_misreads {g : Group} (h : ¬ GroupIntact g) :
    Parser.Misreads Tcp.Ahead (Tcp.session.parsePack g.pack) (groupWire g) g.values := by
  cases g with
  | scalars ds =>
    exact ((Tcp.parsePack_complete (g := .scalars ds) trivial).2 (not_le.mp h)).misreads _
  | array ty es =>
    exact ((Tcp.parsePack_complete (g := .array ty es) trivial).2 (not_le.mp h)).misreads _
  | vector ty es =>
    have hge : 2 ^ 31 ≤ (images ty es).length := not_lt.mp h
    rcases lt_or_ge (images ty es).length (2 ^ 32) with hlt | hlong
    · have hsized : (Group.vector ty es).Sized := hlt
      exact ((Tcp.parsePack_complete hsized).2 (toInt32_neg hge hlt)).misreads _
    · -- The length field has lost its high bits.
      apply vector_misreads
      apply ne_of_lt
      rw [Nat.div_lt_iff_lt_mul ty.size_pos, ← length_images]
      exact lt_of_lt_of_le (BitVec.isLt _) hlong
  | string bytes =>
    by_cases hlen : (BitVec.ofNat 32 (codePoints bytes)).toNat = bytes.length
    · have hle := codePoints_le bytes
      have hlt := (BitVec.ofNat 32 (codePoints bytes)).isLt
      rw [hlen] at hlt
      rw [BitVec.toNat_ofNat, Nat.mod_eq_of_lt (lt_of_le_of_lt hle hlt)] at hlen
      have hge : 2 ^ 31 ≤ bytes.length := by
        by_contra hshort
        exact h ⟨hlen, not_le.mp hshort⟩
      have hsized : (Group.string bytes).Sized := hlt
      have hwire : groupWire (.string bytes) = (Group.string bytes).wire := by
        rw [groupWire, pyWire, hlen]
        rfl
      rw [hwire]
      exact ((Tcp.parsePack_complete hsized).2 (toInt32_neg hge hlt)).misreads _
    · exact string_misreads hlen bytes

/-! ## What the server makes of it -/

/-- The `static_assert` of `Buffer::deserialize`. -/
def PackFits : Pack → Prop
  | .scalars tys => requiredBufferSize tys ≤ cmdPayloadBufferLen
  | _ => True

instance : (p : Pack) → Decidable (PackFits p)
  | .scalars tys => inferInstanceAs (Decidable (requiredBufferSize tys ≤ cmdPayloadBufferLen))
  | .array _ _ | .vector _ | .string => inferInstanceAs (Decidable True)

/-- The code that is generated for the operation compiles. -/
def Compiles (sig : List ArgType) : Prop := ∀ p ∈ buildArgsPacks [] sig, PackFits p

instance (sig : List ArgType) : Decidable (Compiles sig) :=
  inferInstanceAs (Decidable (∀ p ∈ buildArgsPacks [] sig, PackFits p))

/-- The request gives the server the ids and the values that the arguments
denote, and takes exactly its own bytes from the connection. -/
def RoundTrips (libs : Libs) (table : Table) (driver operation : BitVec 16) (sig : List ArgType)
    (args : List Arg) : Prop :=
  ∃ cmd values, makeCommand libs driver operation sig args = some cmd ∧
    DenotesAll libs sig args values ∧
    Parser.Decodes Tcp.Ahead (Tcp.serve table) cmd ⟨driver, operation, values⟩

theorem makeCommand_eq {sig : List ArgType} {args : List Arg} {payload : List Byte}
    (h : buildPayload libs sig args = some payload) (driver operation : BitVec 16) :
    makeCommand libs driver operation sig args =
      some (commandHeader (append32 0#32) driver operation ++ payload) := by
  rw [makeCommand, h, Option.map_some, append_four, append_two, append_two, ofInt_toNat,
    ofInt_toNat, List.append_assoc (append32 _)]
  rfl

theorem groupIntact_iff {sig : List ArgType} {values : List Value} (hcompiles : Compiles sig)
    (htypes : values.map Value.type = sig) :
    (∀ g ∈ groups [] values, GroupIntact g) ↔ ∀ v ∈ values, ValueIntact v := by
  refine forall_groups (fun _ _ => Iff.rfl) (fun _ _ => Iff.rfl) (fun _ => Iff.rfl)
    (fun _ => trivial) ?_
  intro ds hds
  have hpack : .scalars (ds.map Datum.ty) ∈ buildArgsPacks [] sig := by
    rw [← htypes, ← List.map_nil, ← map_pack_groups]
    exact List.mem_map_of_mem hds
  have hle : requiredBufferSize (ds.map Datum.ty) ≤ cmdPayloadBufferLen := hcompiles _ hpack
  rw [GroupIntact, length_serialize, toInt32_of_lt (lt_of_le_of_lt hle (by decide))]
  exact Int.natCast_nonneg _

/-- Whether a request is intact can be seen from its values. -/
theorem forall_intact_iff {sig : List ArgType} {args : List Arg} {values : List Value}
    (hd : DenotesAll libs sig args values) :
    (∀ p ∈ sig.zip args, Intact p.1 p.2) ↔ ∀ v ∈ values, ValueIntact v := by
  unfold DenotesAll at hd
  generalize sig.zip args = ps at hd
  induction hd with
  | nil => simp
  | cons hv _ ih =>
    rw [List.forall_mem_cons, List.forall_mem_cons]
    exact and_congr (intact_iff hv) ih

section Request

variable {table : Table} {driver operation : BitVec 16} {sig : List ArgType} {args : List Arg}

/-- A request with an argument that is not intact gives the server something else. -/
theorem not_roundTrips_of_not_intact (hcompiles : Compiles sig)
    (htable : table driver operation = some sig)
    (hnot : ¬ ∀ p ∈ sig.zip args, Intact p.1 p.2) :
    ¬ RoundTrips libs table driver operation sig args := by
  rintro ⟨cmd, values, hcmd, hdenotes, hserve⟩
  obtain ⟨payload, hpayload⟩ : ∃ payload, buildPayload libs sig args = some payload := by
    rcases hp : buildPayload libs sig args with _ | payload
    · simp [makeCommand, hp] at hcmd
    · exact ⟨payload, rfl⟩
  obtain ⟨rfl, htypes⟩ := buildPayload_of_denotesAll hpayload hdenotes
  rw [makeCommand_eq hpayload] at hcmd
  obtain rfl := Option.some.inj hcmd
  rw [forall_intact_iff hdenotes] at hnot
  have hbad : ∃ g ∈ groups [] values, ¬ GroupIntact g := by
    by_contra hall
    refine hnot ((groupIntact_iff hcompiles htypes).mp fun g hg => ?_)
    by_contra hneg
    exact hall ⟨g, hg, hneg⟩
  have hmis : Parser.Misreads Tcp.Ahead (Tcp.session.parse sig)
      ((groups [] values).flatMap groupWire) values := by
    rw [← htypes]
    apply Session.parse_misreads
    · intro g _
      by_cases hg : GroupIntact g
      · exact .inl (parsePack_intact hg)
      · exact .inr (parsePack_misreads hg)
    · obtain ⟨g, hg, hneg⟩ := hbad
      exact ⟨g, hg, parsePack_misreads hneg⟩
  rw [← flatMap_groupWire] at hserve
  -- Any connection that holds the request will do.
  have hcmd := Tcp.ahead_bytewise (commandHeader (append32 0#32) driver operation ++
    (groups [] values).flatMap groupWire) fun _ => ⟨fun _ => 0, fun _ => [], []⟩
  obtain ⟨s', hs', -⟩ := hserve _ [] hcmd
  rw [List.append_assoc] at hcmd
  obtain ⟨s₁, hs₁, hvalues⟩ := Tcp.parse_of_serve rfl htable hcmd hs'
  exact hmis s₁ [] hs₁ values hvalues [] [] rfl

/-- A request of the Python client round-trips just when its strings are ASCII,
its arrays have exactly the elements of their parameters, and none of these nor
a vector has a size that is negative as an `int`. -/
theorem roundTrips_iff_intact (hcompiles : Compiles sig)
    (htable : table driver operation = some sig) (haccepted : (buildPayload libs sig args).isSome)
    (hrange : ∀ p ∈ sig.zip args, InRange p.1 p.2) :
    RoundTrips libs table driver operation sig args ↔ ∀ p ∈ sig.zip args, Intact p.1 p.2 := by
  constructor
  · intro hround
    by_contra hnot
    exact not_roundTrips_of_not_intact hcompiles htable hnot hround
  · intro hintact
    obtain ⟨payload, hpayload⟩ := Option.isSome_iff_exists.mp haccepted
    obtain ⟨values, hdenotes⟩ := exists_denotesAll hpayload hrange hintact
    obtain ⟨rfl, htypes⟩ := buildPayload_of_denotesAll hpayload hdenotes
    have hgroups := (groupIntact_iff hcompiles htypes).mpr ((forall_intact_iff hdenotes).mp hintact)
    refine ⟨_, values, makeCommand_eq hpayload driver operation, hdenotes, ?_⟩
    refine Tcp.serve_of_parse rfl htable ?_
    rw [← htypes, ← flatMap_groupWire]
    exact Session.parse_decodes fun g hg => parsePack_intact (hgroups g hg)

end Request

/-- Operations 0 and 1 of driver 2: one with arguments of every kind, and one
with a string. -/
def exampleTable : Table := fun driver operation =>
  if driver = 2 ∧ operation = 0 then
    some [.scalar .int16, .scalar .bool, .scalar .float, .vector .uint8, .array .int32 2, .string]
  else if driver = 2 ∧ operation = 1 then some [.string]
  else none

/-- `struct.pack` of 1.5. -/
def exampleLibs : Libs where
  packFloat
    | .float bits => if bits = 0x3ff8000000000000#64 then some 0x3fc00000#32 else none
    | _ => none
  packDouble
    | .float bits => some bits
    | _ => none
  arrayTruth _ := none

theorem mixed_roundTrips_python :
    RoundTrips exampleLibs exampleTable 2 0
      [.scalar .int16, .scalar .bool, .scalar .float, .vector .uint8, .array .int32 2, .string]
      [.int (-2), .bool true, .float 0x3ff8000000000000#64,
        .ndarray ⟨.uint8, 3, [], [1, 2, 3], rfl⟩, .ndarray ⟨.int32, 2, [], [4, 5], rfl⟩,
        .str ['h', 'i']] := by
  refine (roundTrips_iff_intact (by decide) (by decide) (by decide) ?_).mpr ?_
  · simp only [List.zip_cons_cons, List.zip_nil_right, List.forall_mem_cons]
    refine ⟨?_, ?_, ?_, trivial, trivial, trivial, by simp⟩
    · intro _ n hn
      obtain rfl := Option.some.inj hn
      exact ⟨-2, by decide⟩
    · exact fun hinteger => absurd hinteger (by decide)
    · exact fun hinteger => absurd hinteger (by decide)
  · simp only [List.zip_cons_cons, List.zip_nil_right, List.forall_mem_cons]
    refine ⟨trivial, trivial, trivial, ?_, ⟨rfl, by decide⟩, ⟨?_, by decide⟩, by simp⟩
    · show 3 * 1 < 2 ^ 31
      decide
    · simp

/-- A string with one character beyond ASCII is accepted and sent. -/
theorem accented_not_roundTrips :
    (makeCommand exampleLibs 2 1 [.string] [.str [Char.ofNat 0xe9]]).isSome ∧
      ¬ RoundTrips exampleLibs exampleTable 2 1 [.string] [.str [Char.ofNat 0xe9]] := by
  refine ⟨rfl, not_roundTrips_of_not_intact (by decide) (by decide) ?_⟩
  intro hall
  obtain ⟨hascii, -⟩ := hall (.string, .str [Char.ofNat 0xe9]) (by simp)
  exact absurd (hascii _ (List.mem_singleton.mpr rfl)) (by decide)

end Koheron.PyClient
