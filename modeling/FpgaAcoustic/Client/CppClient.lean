-- SUMMARY: Requests as the C++ client serializes them, and when the server reads them back.
import FpgaAcoustic.Server.Payload
import FpgaAcoustic.Server.Tcp

/-!
# C++ client

`DynamicSerializer` collects scalars in a buffer of fixed size and moves them to
the request before each container and at the end. A request whose scalars do
not fit that buffer has no meaning: the model gives it no bytes.
-/

namespace Koheron.CppClient

open Bytes

/-- `SCALAR_PACK_LEN`. -/
def scalarPackLen : ℕ := 1024

/-- The codecs of the client: those of the server, but for complex numbers. -/
def append : (ty : Scalar) → ty.Val → Option (List Byte)
  | .complexFloat, _ | .complexDouble, _ => none
  | ty, v => some (Koheron.append ty v)

/-- The request under construction and the scalars in `scal_data`. -/
structure Serializer where
  buffer : List Byte
  scalData : List Byte
  deriving DecidableEq, Repr

namespace Serializer

/-- `append(T t)`. -/
def append (s : Serializer) (d : Datum) : Option Serializer :=
  match CppClient.append d.ty d.val with
  | none => none
  | some bytes =>
    if s.scalData.length + bytes.length ≤ scalarPackLen then
      some { s with scalData := s.scalData ++ bytes }
    else none

def dumpScalarPack (s : Serializer) : Serializer :=
  if s.scalData.length > 0 then ⟨s.buffer ++ s.scalData, []⟩ else s

/-- For a vector or a string, whose size is stored as a `uint32_t`. -/
def dumpContainerToBuffer (s : Serializer) (bytes : List Byte) : Serializer :=
  let nBytes := BitVec.ofNat 32 bytes.length
  { s with buffer := s.buffer ++ append32 nBytes ++ bytes.take nBytes.toNat }

def dumpArrayToBuffer (s : Serializer) (bytes : List Byte) : Serializer :=
  { s with buffer := s.buffer ++ bytes }

def commandSerializer (s : Serializer) : List Value → Option Serializer
  | [] => some s
  | .scalar d :: args =>
    match s.append d with
    | none => none
    | some s => commandSerializer s args
  | .vector ty es :: args =>
    commandSerializer (s.dumpScalarPack.dumpContainerToBuffer (images ty es)) args
  | .string bytes :: args =>
    commandSerializer (s.dumpScalarPack.dumpContainerToBuffer bytes) args
  | .array ty es :: args =>
    commandSerializer (s.dumpScalarPack.dumpArrayToBuffer (images ty es)) args

end Serializer

/-- `build_command<class_id, func_id>`. -/
def buildCommand (classId funcId : BitVec 16) (args : List Value) : Option (List Byte) :=
  let header := serialize [⟨.uint32, 0#32⟩, ⟨.uint16, classId⟩, ⟨.uint16, funcId⟩]
  match args with
  | [] => some header
  | _ :: _ => ((⟨header, []⟩ : Serializer).commandSerializer args).map fun s => s.dumpScalarPack.buffer

/-! ## What is sent -/

/-- The scalars between two containers fit `scal_data`, and the client has a
codec for each. -/
def Staged : Group → Prop
  | .scalars ds => (serialize ds).length ≤ scalarPackLen ∧ ∀ d ∈ ds, (append d.ty d.val).isSome
  | _ => True

instance : (g : Group) → Decidable (Staged g)
  | .scalars ds => inferInstanceAs (Decidable
      ((serialize ds).length ≤ scalarPackLen ∧ ∀ d ∈ ds, (append d.ty d.val).isSome))
  | .array _ _ | .vector _ _ | .string _ => inferInstanceAs (Decidable True)

theorem append_eq {ty : Scalar} {v : ty.Val} (h : (append ty v).isSome) :
    append ty v = some (Koheron.append ty v) := by
  cases ty with
  | complexFloat | complexDouble => simp [append] at h
  | _ => rfl

namespace Serializer

/-- The bytes so far, in the order in which they will be sent. -/
def bytes (s : Serializer) : List Byte := s.buffer ++ s.scalData

theorem dumpScalarPack_eq (s : Serializer) : s.dumpScalarPack = ⟨s.bytes, []⟩ := by
  rcases s with ⟨buffer, _ | ⟨b, bs⟩⟩
  · simp [dumpScalarPack, bytes]
  · simp [dumpScalarPack, bytes]

theorem dumpContainerToBuffer_eq {s : Serializer} {bs : List Byte} (h : bs.length < 2 ^ 32) :
    s.dumpScalarPack.dumpContainerToBuffer bs = ⟨s.bytes ++ prefixed bs, []⟩ := by
  rw [dumpScalarPack_eq, dumpContainerToBuffer, BitVec.toNat_ofNat, Nat.mod_eq_of_lt h,
    List.take_length, prefixed, List.append_assoc]

/-- A scalar of a pack that fits is taken up. -/
theorem append_of_staged {s : Serializer} {ds es : List Datum} {d : Datum}
    (hs : s.scalData = serialize ds) (hstaged : Staged (.scalars (ds ++ [d] ++ es))) :
    s.append d = some ⟨s.buffer, serialize (ds ++ [d])⟩ := by
  obtain ⟨hfit, hcodec⟩ := hstaged
  have hsplit : serialize (ds ++ [d]) = s.scalData ++ Koheron.append d.ty d.val := by
    rw [serialize_append, serialize_cons, serialize_nil, List.append_nil, hs]
  rw [serialize_append, hsplit, List.length_append, List.length_append] at hfit
  have hlen : s.scalData.length + (Koheron.append d.ty d.val).length ≤ scalarPackLen := by
    omega
  rw [append, append_eq (hcodec d (by simp)), hsplit]
  simp only [if_pos hlen]

/-- The packs are moved in the order of the arguments. -/
theorem commandSerializer_eq {s : Serializer} {ds : List Datum} {args : List Value}
    (hs : s.scalData = serialize ds) (hsized : ∀ v ∈ args, v.Sized)
    (hstaged : ∀ g ∈ groups ds args, Staged g) :
    ∃ s', s.commandSerializer args = some s' ∧
      s'.bytes = s.bytes ++ args.flatMap Value.wire := by
  induction args generalizing s ds with
  | nil => exact ⟨s, rfl, by simp⟩
  | cons arg args ih =>
    obtain ⟨harg, hargs⟩ := List.forall_mem_cons.mp hsized
    -- After a container nothing is pending.
    have hflushed : ∀ w, (∀ g ∈ groups [] args, Staged g) →
        ∃ s', (⟨s.bytes ++ w, []⟩ : Serializer).commandSerializer args = some s' ∧
          s'.bytes = s.bytes ++ (w ++ args.flatMap Value.wire) := by
      intro w hnext
      obtain ⟨s', hs', hbytes⟩ := @ih ⟨s.bytes ++ w, []⟩ [] rfl hargs hnext
      refine ⟨s', hs', ?_⟩
      rw [hbytes]
      simp [bytes]
    cases arg with
    | scalar d =>
      obtain ⟨es, hmem⟩ := @exists_scalars_mem_groups (ds ++ [d]) (by simp) args
      obtain ⟨s', hs', hbytes⟩ := @ih ⟨s.buffer, serialize (ds ++ [d])⟩ _ rfl hargs hstaged
      refine ⟨s', ?_, ?_⟩
      · simp only [commandSerializer, append_of_staged hs (hstaged _ hmem), hs']
      · rw [hbytes]
        simp [bytes, hs, Value.wire]
    | vector ty es =>
      rw [commandSerializer, dumpContainerToBuffer_eq harg]
      exact hflushed _ fun g hg => hstaged g (List.mem_append_right _ (List.mem_cons_of_mem _ hg))
    | string str =>
      rw [commandSerializer, dumpContainerToBuffer_eq harg]
      exact hflushed _ fun g hg => hstaged g (List.mem_append_right _ (List.mem_cons_of_mem _ hg))
    | array ty es =>
      rw [commandSerializer, dumpScalarPack_eq]
      exact hflushed _ fun g hg => hstaged g (List.mem_append_right _ (List.mem_cons_of_mem _ hg))

end Serializer

/-- The bytes that the client reserves. -/
def reserved : List Byte := append32 0#32

theorem length_reserved : reserved.length = headerStart := rfl

/-- A request is its header and its arguments. -/
theorem buildCommand_eq {args : List Value} (classId funcId : BitVec 16)
    (hsized : ∀ v ∈ args, v.Sized) (hstaged : ∀ g ∈ groups [] args, Staged g) :
    buildCommand classId funcId args =
      some (commandHeader reserved classId funcId ++ args.flatMap Value.wire) := by
  have hheader : serialize [⟨.uint32, 0#32⟩, ⟨.uint16, classId⟩, ⟨.uint16, funcId⟩] =
      commandHeader reserved classId funcId := rfl
  cases args with
  | nil => simp [buildCommand, hheader]
  | cons arg args =>
    obtain ⟨s', hs', hbytes⟩ := @Serializer.commandSerializer_eq
      ⟨commandHeader reserved classId funcId, []⟩ [] _ rfl hsized hstaged
    simp only [buildCommand, hheader, hs', Option.map_some, Serializer.dumpScalarPack_eq]
    rw [hbytes, Serializer.bytes, List.append_nil]

/-! ## What the server makes of it -/

/-- The request gives the server the ids and the arguments and nothing more to
read: on a connection, whatever the chunks and whatever follows, and in a
WebSocket command whose payload fits its buffer. -/
def RoundTrips (table : Table) (driver operation : BitVec 16) (args : List Value) : Prop :=
  ∃ cmd, buildCommand driver operation args = some cmd ∧
    Parser.Decodes Tcp.Ahead (Tcp.serve table) cmd ⟨driver, operation, args⟩ ∧
    ∀ header data : Memory, header.Starts (cmd.take headerSize) →
      data.Starts (cmd.drop headerSize) → (cmd.drop headerSize).length ≤ cmdPayloadBufferLen →
      ∃ b, execute Buffer.session table (headerIds header) ⟨data, 0⟩ =
          (some ⟨driver, operation, args⟩, b) ∧
        b.position = (cmd.drop headerSize).length

variable {table : Table} {driver operation : BitVec 16} {args : List Value}

/-- What fits the payload buffer is decoded from it. -/
theorem execute_payload (htable : table driver operation = some (args.map Value.type))
    {header data : Memory} (hheader : header.Starts (commandHeader reserved driver operation))
    (hdata : data.Starts (args.flatMap Value.wire))
    (hle : (args.flatMap Value.wire).length ≤ cmdPayloadBufferLen) :
    ∃ b, execute Buffer.session table (headerIds header) ⟨data, 0⟩ =
        (some ⟨driver, operation, args⟩, b) ∧
      b.position = (args.flatMap Value.wire).length := by
  have hparse : Parser.Decodes (Buffer.Ahead (args.flatMap Value.wire).length)
      (Buffer.session.parse (args.map Value.type)) (args.flatMap Value.wire) args := by
    rw [← flatMap_wire_groups]
    refine Session.parse_decodes fun g hg => ?_
    exact Buffer.parsePack_complete ((length_body_le_of_mem hg).trans hle)
  have hahead : Buffer.Ahead (args.flatMap Value.wire).length ⟨data, 0⟩
      (args.flatMap Value.wire ++ []) := by
    rw [List.append_nil]
    refine ⟨?_, Nat.zero_add _⟩
    rw [Buffer.begin, Memory.drop_zero]
    exact hdata
  obtain ⟨b, hb, -, hposition⟩ := hparse ⟨data, 0⟩ [] hahead
  refine ⟨b, ?_, hposition⟩
  rw [headerIds_commandHeader length_reserved hheader, execute_of_table htable, Parser.map_some hb]

/-- A request with a group whose size is negative as an `int` is not executed. -/
theorem not_roundTrips_of_wide (htable : table driver operation = some (args.map Value.type))
    (hsized : ∀ v ∈ args, v.Sized) (hstaged : ∀ g ∈ groups [] args, Staged g)
    (hwide : ∃ g ∈ groups [] args, toInt32 g.body.length < 0) :
    ¬ RoundTrips table driver operation args := by
  rintro ⟨cmd, hcmd, hserve, -⟩
  rw [buildCommand_eq driver operation hsized hstaged] at hcmd
  obtain rfl := Option.some.inj hcmd
  -- Any connection that holds the request will do.
  have hahead := fun cmd => Tcp.ahead_bytewise cmd fun _ => ⟨fun _ => 0, fun _ => [], []⟩
  obtain ⟨s', hsome, -⟩ := hserve _ [] (hahead _)
  have hnone := Tcp.serve_rejects length_reserved htable hsized hwide _ [] (hahead _)
  rw [hsome] at hnone
  simp at hnone

/-- A request round-trips just when every pack, array and container in it has a
size that is not negative as an `int`. -/
theorem roundTrips_iff (htable : table driver operation = some (args.map Value.type))
    (hsized : ∀ v ∈ args, v.Sized) (hstaged : ∀ g ∈ groups [] args, Staged g) :
    RoundTrips table driver operation args ↔
      ∀ g ∈ groups [] args, 0 ≤ toInt32 g.body.length := by
  constructor
  · intro hround g hg
    by_contra hneg
    exact not_roundTrips_of_wide htable hsized hstaged ⟨g, hg, not_le.mp hneg⟩ hround
  · intro hnarrow
    have hlen := length_commandHeader length_reserved driver operation
    refine ⟨_, buildCommand_eq driver operation hsized hstaged,
      Tcp.serve_decodes length_reserved htable hsized hnarrow, ?_⟩
    intro header data hheader hdata hle
    rw [← hlen, List.take_left] at hheader
    rw [← hlen, List.drop_left] at hdata hle ⊢
    exact execute_payload htable hheader hdata hle

/-- Operations 0 and 1 of driver 2: one with arguments of every kind, and one
with a string. -/
def exampleTable : Table := fun driver operation =>
  if driver = 2 ∧ operation = 0 then
    some [.scalar .bool, .scalar .uint16, .vector .uint32, .array .int8 2, .string, .scalar .double]
  else if driver = 2 ∧ operation = 1 then some [.string]
  else none

theorem mixed_roundTrips :
    RoundTrips exampleTable 2 0
      [.scalar ⟨.bool, true⟩, .scalar ⟨.uint16, 513⟩, .vector .uint32 [7, 8],
        .array .int8 [1, 2], .string [104, 105], .scalar ⟨.double, 3⟩] :=
  (roundTrips_iff (by decide) (by decide) (by decide)).mpr (by decide)

/-- A string of 2 GiB is sent but not received. -/
theorem longString_not_roundTrips :
    ¬ RoundTrips exampleTable 2 1 [.string (List.replicate (2 ^ 31) 0)] := by
  have hlen : (List.replicate (2 ^ 31) (0 : Byte)).length = 2 ^ 31 := List.length_replicate
  generalize List.replicate (2 ^ 31) (0 : Byte) = str at hlen ⊢
  apply not_roundTrips_of_wide rfl
  · intro v hv
    obtain rfl := List.mem_singleton.mp hv
    rw [Value.Sized, hlen]
    decide
  · intro g hg
    obtain rfl : g = .string str := List.mem_singleton.mp hg
    trivial
  · refine ⟨.string str, List.mem_singleton.mpr rfl, ?_⟩
    rw [Group.body, hlen]
    decide

end Koheron.CppClient
