-- SUMMARY: What driver methods return, and the bytes that a session builds to send it.
import FpgaAcoustic.Client.CppClient

/-!
# Responses

A session serializes what a driver method returns with `DynamicSerializer`, the
class that the C++ client has for its requests. The server has it with the
codecs of complex numbers as well. A tuple is sent as its scalars, and a tuple
whose scalars do not fit the buffer for them has no meaning.
-/

namespace Koheron

open Bytes

open CppClient (Serializer scalarPackLen)

/-- What a driver method returns. -/
inductive ReturnValue
  | scalar (d : Datum)
  | tuple (ds : List Datum)
  | array (ty : Scalar) (es : List ty.Val)
  | vector (ty : Scalar) (es : List ty.Val)
  | string (bytes : List Byte)
  deriving DecidableEq

namespace ReturnValue

/-- The arguments of the serializer. -/
def args : ReturnValue → List Value
  | scalar d => [.scalar d]
  | tuple ds => ds.map .scalar
  | array ty es => [.array ty es]
  | vector ty es => [.vector ty es]
  | string bytes => [.string bytes]

/-- The scalars that are collected. -/
def scalars : ReturnValue → List Datum
  | scalar d => [d]
  | tuple ds => ds
  | _ => []

/-- The scalars fit `scal_data`. -/
def Fits (v : ReturnValue) : Prop := (serialize v.scalars).length ≤ scalarPackLen

instance (v : ReturnValue) : Decidable v.Fits := inferInstanceAs (Decidable (_ ≤ _))

/-- The number of bytes of a container fits the 32 bits in which it is sent. -/
def Sized (v : ReturnValue) : Prop := ∀ arg ∈ v.args, arg.Sized

/-- Scalars have a fixed size. -/
theorem sized_tuple (ds : List Datum) : (tuple ds).Sized := by
  intro arg harg
  obtain ⟨d, -, rfl⟩ := List.mem_map.mp harg
  trivial

/-- The bytes after the header. -/
def wire (v : ReturnValue) : List Byte := v.args.flatMap Value.wire

theorem wire_tuple (ds : List Datum) : (tuple ds).wire = serialize ds := by
  rw [wire, args, List.flatMap_map]
  rfl

end ReturnValue

namespace Response

/-- `append(T t)`. -/
def append (s : Serializer) (d : Datum) : Option Serializer :=
  let bytes := Koheron.append d.ty d.val
  if s.scalData.length + bytes.length ≤ scalarPackLen then
    some { s with scalData := s.scalData ++ bytes }
  else none

def commandSerializer (s : Serializer) : List Value → Option Serializer
  | [] => some s
  | .scalar d :: args =>
    match append s d with
    | none => none
    | some s => commandSerializer s args
  | .vector ty es :: args =>
    commandSerializer (s.dumpScalarPack.dumpContainerToBuffer (images ty es)) args
  | .string bytes :: args =>
    commandSerializer (s.dumpScalarPack.dumpContainerToBuffer bytes) args
  | .array ty es :: args =>
    commandSerializer (s.dumpScalarPack.dumpArrayToBuffer (images ty es)) args

/-- `serialize(0U, class_id, func_id)`. -/
def header (classId funcId : BitVec 16) : List Datum :=
  [⟨.uint32, 0#32⟩, ⟨.uint16, classId⟩, ⟨.uint16, funcId⟩]

/-- `build_command<class_id, func_id>`. -/
def buildCommand (classId funcId : BitVec 16) (args : List Value) : Option (List Byte) :=
  match args with
  | [] => some (serialize (header classId funcId))
  | _ :: _ =>
    (commandSerializer ⟨serialize (header classId funcId), []⟩ args).map fun s =>
      s.dumpScalarPack.buffer

/-- What `Session::send<class_id, func_id>` writes. -/
def send (classId funcId : BitVec 16) (v : ReturnValue) : Option (List Byte) :=
  buildCommand classId funcId v.args

/-! ## The bytes -/

/-- Scalars are collected as long as they fit. -/
theorem commandSerializer_scalars {s : Serializer} (h : s.scalData.length ≤ scalarPackLen)
    (ds : List Datum) :
    commandSerializer s (ds.map .scalar) =
      if s.scalData.length + (serialize ds).length ≤ scalarPackLen then
        some { s with scalData := s.scalData ++ serialize ds }
      else none := by
  induction ds generalizing s with
  | nil =>
    rw [serialize_nil, List.length_nil, Nat.add_zero, if_pos h, List.append_nil]
    rfl
  | cons d ds ih =>
    rw [List.map_cons, commandSerializer, append, serialize_cons, List.length_append]
    by_cases hfit : s.scalData.length + (Koheron.append d.ty d.val).length ≤ scalarPackLen
    · have hrest := @ih { s with scalData := s.scalData ++ Koheron.append d.ty d.val }
        (by rwa [List.length_append])
      simp only [if_pos hfit, hrest, List.length_append, List.append_assoc, Nat.add_assoc]
    · simp only [if_neg hfit]
      rw [if_neg (by omega)]

theorem buildCommand_scalars (classId funcId : BitVec 16) (ds : List Datum) :
    buildCommand classId funcId (ds.map .scalar) =
      if (serialize ds).length ≤ scalarPackLen then
        some (serialize (header classId funcId) ++ serialize ds)
      else none := by
  cases ds with
  | nil => simp [buildCommand]
  | cons d ds =>
    have hser := @commandSerializer_scalars ⟨serialize (header classId funcId), []⟩
      (Nat.zero_le _) (d :: ds)
    rw [List.length_nil, Nat.zero_add, List.nil_append] at hser
    show (commandSerializer _ ((d :: ds).map .scalar)).map _ = _
    rw [hser]
    split_ifs
    · rw [Option.map_some, Serializer.dumpScalarPack_eq]
      rfl
    · rfl

/-- The session sends the header and the bytes of the value, where its scalars fit. -/
theorem send_eq {v : ReturnValue} (hsized : v.Sized) (classId funcId : BitVec 16) :
    send classId funcId v =
      if v.Fits then some (serialize (header classId funcId) ++ v.wire) else none := by
  -- A container is dumped after the header, with no scalars before or after it.
  have hdumped : ∀ {arg bs}, commandSerializer ⟨serialize (header classId funcId), []⟩ [arg] =
        some ⟨serialize (header classId funcId) ++ bs, []⟩ →
      buildCommand classId funcId [arg] = some (serialize (header classId funcId) ++ bs) := by
    intro arg bs hser
    rw [buildCommand, hser]
    rfl
  cases v with
  | scalar d =>
    have hscalars := buildCommand_scalars classId funcId [d]
    rw [serialize_cons, serialize_nil] at hscalars
    exact hscalars
  | tuple ds =>
    rw [ReturnValue.wire_tuple]
    exact buildCommand_scalars classId funcId ds
  | array ty es =>
    have hfits : (ReturnValue.array ty es).Fits := Nat.zero_le _
    rw [if_pos hfits, ReturnValue.wire, ReturnValue.args, List.flatMap_singleton]
    exact hdumped rfl
  | vector ty es =>
    have hfits : (ReturnValue.vector ty es).Fits := Nat.zero_le _
    have hlen : (images ty es).length < 2 ^ 32 := hsized _ (List.mem_singleton_self _)
    rw [if_pos hfits, ReturnValue.wire, ReturnValue.args, List.flatMap_singleton]
    apply hdumped
    rw [commandSerializer, Serializer.dumpContainerToBuffer_eq hlen, Serializer.bytes,
      List.append_nil]
    rfl
  | string bytes =>
    have hfits : (ReturnValue.string bytes).Fits := Nat.zero_le _
    have hlen : bytes.length < 2 ^ 32 := hsized _ (List.mem_singleton_self _)
    rw [if_pos hfits, ReturnValue.wire, ReturnValue.args, List.flatMap_singleton]
    apply hdumped
    rw [commandSerializer, Serializer.dumpContainerToBuffer_eq hlen, Serializer.bytes,
      List.append_nil]
    rfl

end Response

end Koheron
