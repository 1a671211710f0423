-- SUMMARY: How the C++ client receives what a driver method returns, and which values come back.
import FpgaAcoustic.Client.CppSerdes
import FpgaAcoustic.Client.PyReceive

/-!
# Responses in the C++ client

The sizes that `recv_all` is called with are converted to `int`, and a negative
one is more than a vector can hold. The header of a response is only compared in
a build with assertions.
-/

namespace Koheron.CppReceive

open Bytes

open PyReceive (Ahead)

/-! ## recv_all -/

/-- Either the connection brings all bytes, or an exception is thrown. -/
def recvAll (nBytes : ℤ) : Parser Socket (List Byte) := fun sock =>
  if nBytes < 0 then (none, sock)
  else
    match sock.receive nBytes.toNat with
    | (.full, rcvBuffer, sock) => (some rcvBuffer, sock)
    | (_, _, sock) => (none, sock)

/-! ## command_deserializer -/

def headerTypes : List Serdes.Scalar := [.uint32, .uint16, .uint16]

/-- `header_size`. -/
def headerSize : ℕ := Serdes.requiredBufferSize headerTypes

/-- What `rcv_buffer` starts with, and with assertions what the last call was. -/
structure Client where
  asserts : Bool
  lastClassId : BitVec 16
  lastFuncId : BitVec 16

/-- `check_returned_header`. -/
def checkReturnedHeader (client : Client) (rcvBuffer : List Byte) : Option Unit :=
  let t := (Serdes.deserialize 0 headerTypes (Memory.ofBytes rcvBuffer)).map Serdes.Datum.server
  if client.asserts ∧ t ≠ Response.header client.lastClassId client.lastFuncId then none
  else some ()

/-- The buffer after the header. -/
def body (rcvBuffer : List Byte) : Memory := (Memory.ofBytes rcvBuffer).drop headerSize

/-- `recv_all`, and the check of the header. -/
def recvChecked (client : Client) (nBytes : ℕ) : Parser Socket (List Byte) :=
  (recvAll (toInt32 nBytes)).bind fun rcvBuffer =>
    (Parser.lift (checkReturnedHeader client rcvBuffer)).map fun _ => rcvBuffer

/-- `get_payload_dynamic`. -/
def getPayloadDynamic (client : Client) : Parser Socket (List Byte) :=
  (recvChecked client (Serdes.requiredBufferSize (headerTypes ++ [.uint32]))).bind fun rcvBuffer =>
    recvAll (toInt32 (Serdes.extract32 (body rcvBuffer)).toNat)

/-- The types with which `recv` is called. -/
inductive Call
  | scalar (ty : Serdes.Scalar)
  | tuple (tys : List Serdes.Scalar)
  | array (ty : Scalar) (n : ℕ)
  | vector (ty : Scalar)
  | string

/-- `command_deserializer<Tp...>`. Reading an array behind the end of the buffer
has no result. -/
def Call.run (client : Client) : Call → Parser Socket ReturnValue
  | scalar ty =>
    (recvChecked client (Serdes.requiredBufferSize (headerTypes ++ [ty]))).map fun rcvBuffer =>
      .scalar (Serdes.Datum.server ⟨ty, Serdes.extract ty (body rcvBuffer)⟩)
  | tuple tys =>
    (recvChecked client (Serdes.requiredBufferSize (headerTypes ++ tys))).map fun rcvBuffer =>
      .tuple ((Serdes.deserialize 0 tys (body rcvBuffer)).map Serdes.Datum.server)
  | array ty n =>
    (recvChecked client (headerSize + ty.size * n)).bind fun rcvBuffer =>
      Parser.lift <|
        if headerSize + ty.size * n ≤ rcvBuffer.length then
          some (.array ty (readElems ty n (body rcvBuffer)))
        else none
  | vector ty =>
    (getPayloadDynamic client).map fun rcvBuffer =>
      .vector ty (readElems ty (rcvBuffer.length / ty.size) (Memory.ofBytes rcvBuffer))
  | string => (getPayloadDynamic client).map .string

/-! ## Specification -/

/-- The call for what a driver method returns. -/
inductive Matches : ReturnValue → Call → Prop
  | scalar (d : Serdes.Datum) : Matches (.scalar d.server) (.scalar d.ty)
  | tuple (ds : List Serdes.Datum) (htwo : 2 ≤ ds.length) :
      Matches (.tuple (ds.map Serdes.Datum.server)) (.tuple (ds.map Serdes.Datum.ty))
  | array {ty : Scalar} (es : List ty.Val) : Matches (.array ty es) (.array ty es.length)
  | vector {ty : Scalar} (es : List ty.Val) : Matches (.vector ty es) (.vector ty)
  | string (bytes : List Byte) : Matches (.string bytes) .string

/-- The bytes of a container can be counted with an `int`; those of an array with
its header. -/
def Countable : ReturnValue → Prop
  | .scalar _ | .tuple _ => True
  | .array ty es => headerSize + (images ty es).length < 2 ^ 31
  | .vector ty es => (images ty es).length < 2 ^ 31
  | .string bytes => bytes.length < 2 ^ 31

/-- Whatever the chunks and whatever follows, with or without assertions, the
client takes what the session sends, and returns the value. -/
def RoundTrips (classId funcId : BitVec 16) (v : ReturnValue) (call : Call) : Prop :=
  ∃ bs, Response.send classId funcId v = some bs ∧
    ∀ asserts, Parser.Decodes Ahead (call.run ⟨asserts, classId, funcId⟩) bs v

/-! ## What is received -/

theorem recvAll_decodes {bs : List Byte} (h : bs.length < 2 ^ 31) :
    Parser.Decodes Ahead (recvAll (toInt32 bs.length)) bs bs := by
  intro sock rest hahead
  obtain ⟨sock', hreceive, hflat, -⟩ := Socket.receive_full hahead
  refine ⟨sock', ?_, hflat⟩
  rw [toInt32_of_lt h, recvAll, if_neg (by omega), Int.toNat_natCast, hreceive]

theorem recvAll_neg {nBytes : ℤ} (h : nBytes < 0) (sock : Socket) :
    recvAll nBytes sock = (none, sock) := if_pos h

/-- As many bytes as asked for, or an exception. -/
theorem length_of_recvAll {nBytes : ℤ} {sock sock' : Socket} {bs : List Byte}
    (h : recvAll nBytes sock = (some bs, sock')) : bs.length = nBytes := by
  have hpos : 0 ≤ nBytes := by
    by_contra hneg
    rw [recvAll_neg (not_le.mp hneg)] at h
    exact nomatch (Prod.mk.inj h).1
  have hlen := @Socket.length_of_receive sock nBytes.toNat
  rw [recvAll, if_neg (not_lt.mpr hpos)] at h
  rcases hreceive : sock.receive nBytes.toNat with ⟨outcome, bytes, sock''⟩
  rw [hreceive] at h hlen
  cases outcome with
  | full =>
    obtain rfl := Option.some.inj (Prod.mk.inj h).1
    rw [hlen rfl, Int.toNat_of_nonneg hpos]
  | closed | error => exact nomatch (Prod.mk.inj h).1

section Calls

variable {classId funcId : BitVec 16} {asserts : Bool} {bs : List Byte}

/-- A header and what follows it. -/
def sent (classId funcId : BitVec 16) (bs : List Byte) : List Byte :=
  serialize (Response.header classId funcId) ++ bs

theorem length_sent : (sent classId funcId bs).length = headerSize + bs.length :=
  List.length_append

theorem body_sent : (body (sent classId funcId bs)).Starts bs :=
  (Memory.starts_append.mp (Memory.ofBytes_starts (sent classId funcId bs))).2

/-- The header is that of the last call. -/
theorem checkReturnedHeader_sent :
    checkReturnedHeader ⟨asserts, classId, funcId⟩ (sent classId funcId bs) = some () := by
  have hstarts := (Memory.starts_append.mp (Memory.ofBytes_starts (sent classId funcId bs))).1
  have htypes : headerTypes.map Serdes.Scalar.server =
      (Response.header classId funcId).map Datum.ty := rfl
  have hread : Koheron.deserialize 0 ((Response.header classId funcId).map Datum.ty)
      (Memory.ofBytes (sent classId funcId bs)) = Response.header classId funcId :=
    deserialize_serialize (by rwa [Memory.drop_zero])
  unfold checkReturnedHeader
  rw [Serdes.deserialize_server, htypes, hread]
  simp

theorem recvChecked_decodes (h : headerSize + bs.length < 2 ^ 31) :
    Parser.Decodes Ahead (recvChecked ⟨asserts, classId, funcId⟩ (headerSize + bs.length))
      (sent classId funcId bs) (sent classId funcId bs) := by
  have hlen := @length_sent classId funcId bs
  rw [← hlen] at h ⊢
  intro sock rest hahead
  obtain ⟨sock', hrecv, hrest⟩ := recvAll_decodes h sock rest hahead
  refine ⟨sock', ?_, hrest⟩
  rw [recvChecked, Parser.bind_some hrecv, checkReturnedHeader_sent]
  rfl

/-- The types of the client count the bytes of the server. -/
theorem requiredBufferSize_header (ds : List Serdes.Datum) :
    Serdes.requiredBufferSize (headerTypes ++ ds.map Serdes.Datum.ty) =
      headerSize + (serialize (ds.map Serdes.Datum.server)).length := by
  have htypes : (ds.map Serdes.Datum.ty).map Serdes.Scalar.server =
      (ds.map Serdes.Datum.server).map Datum.ty := by
    rw [List.map_map, List.map_map]
    rfl
  rw [length_serialize, ← htypes, ← Serdes.requiredBufferSize_eq]
  simp only [headerTypes, List.cons_append, List.nil_append, Serdes.requiredBufferSize, headerSize]
  omega

/-- Scalars that fit the buffer of the session. -/
theorem recvChecked_serialize {ds : List Serdes.Datum}
    (hfits : (serialize (ds.map Serdes.Datum.server)).length ≤ CppClient.scalarPackLen) :
    Parser.Decodes Ahead
      (recvChecked ⟨asserts, classId, funcId⟩
        (Serdes.requiredBufferSize (headerTypes ++ ds.map Serdes.Datum.ty)))
      (sent classId funcId (serialize (ds.map Serdes.Datum.server)))
      (sent classId funcId (serialize (ds.map Serdes.Datum.server))) := by
  have hheader : headerSize = 8 := rfl
  have hpack : CppClient.scalarPackLen = 1024 := rfl
  rw [requiredBufferSize_header]
  exact recvChecked_decodes (by omega)

theorem deserialize_body {ds : List Serdes.Datum} :
    (Serdes.deserialize 0 (ds.map Serdes.Datum.ty)
      (body (sent classId funcId (serialize (ds.map Serdes.Datum.server))))).map
        Serdes.Datum.server = ds.map Serdes.Datum.server := by
  have htypes : (ds.map Serdes.Datum.ty).map Serdes.Scalar.server =
      (ds.map Serdes.Datum.server).map Datum.ty := by
    rw [List.map_map, List.map_map]
    rfl
  rw [Serdes.deserialize_server, htypes]
  refine deserialize_serialize ?_
  rw [Memory.drop_zero]
  exact body_sent

/-- The number of bytes, which an `int` holds or not, and then the bytes. -/
theorem getPayloadDynamic_eq (h : bs.length < 2 ^ 32) :
    sent classId funcId (prefixed bs) =
        sent classId funcId (append32 (BitVec.ofNat 32 bs.length)) ++ bs ∧
      (Serdes.extract32
        (body (sent classId funcId (append32 (BitVec.ofNat 32 bs.length))))).toNat = bs.length := by
  refine ⟨?_, ?_⟩
  · rw [sent, prefixed, ← List.append_assoc]
    rfl
  · rw [Serdes.extract32_eq, extract32_append body_sent, BitVec.toNat_ofNat, Nat.mod_eq_of_lt h]

theorem recvLength_decodes (bs : List Byte) :
    Parser.Decodes Ahead
      (recvChecked ⟨asserts, classId, funcId⟩
        (Serdes.requiredBufferSize (headerTypes ++ [.uint32])))
      (sent classId funcId (append32 (BitVec.ofNat 32 bs.length)))
      (sent classId funcId (append32 (BitVec.ofNat 32 bs.length))) :=
  @recvChecked_decodes classId funcId asserts (append32 (BitVec.ofNat 32 bs.length))
    (show 8 + 4 < 2 ^ 31 by decide)

theorem getPayloadDynamic_decodes (h : bs.length < 2 ^ 31) :
    Parser.Decodes Ahead (getPayloadDynamic ⟨asserts, classId, funcId⟩)
      (sent classId funcId (prefixed bs)) bs := by
  obtain ⟨hsplit, hread⟩ := @getPayloadDynamic_eq classId funcId bs (by omega)
  rw [hsplit]
  refine (recvLength_decodes bs).bind ?_
  rw [hread]
  exact recvAll_decodes h

/-- A vector cannot have a negative size. -/
theorem getPayloadDynamic_rejects (hlt : bs.length < 2 ^ 32) (hge : 2 ^ 31 ≤ bs.length) :
    Parser.Rejects Ahead (getPayloadDynamic ⟨asserts, classId, funcId⟩)
      (sent classId funcId (prefixed bs)) := by
  obtain ⟨hsplit, hread⟩ := @getPayloadDynamic_eq classId funcId bs hlt
  rw [hsplit]
  refine (recvLength_decodes bs).bind_rejects ?_
  rw [hread]
  intro sock rest _
  rw [recvAll_neg (toInt32_neg hge hlt)]

/-- The size of what is received is an `int`. -/
theorem length_of_recvChecked {client : Client} {n : ℕ} {sock sock' : Socket}
    (h : recvChecked client n sock = (some bs, sock')) : bs.length < 2 ^ 31 := by
  obtain ⟨rcvBuffer, sock'', hrecv, hcheck⟩ := Parser.of_bind_some h
  obtain ⟨-, -, rfl⟩ := Parser.of_map_some hcheck
  have hlen := length_of_recvAll hrecv
  have hint : toInt32 n < 2 ^ 31 := @Int.bmod_lt n (2 ^ 32) (by decide)
  omega

end Calls

/-! ## Round trips -/

section RoundTrips

variable {v : ReturnValue} {call : Call}

theorem run_decodes (h : Matches v call) (hfits : v.Fits) (hcount : Countable v)
    (asserts : Bool) (classId funcId : BitVec 16) :
    Parser.Decodes Ahead (call.run ⟨asserts, classId, funcId⟩) (sent classId funcId v.wire) v := by
  cases h with
  | scalar d =>
    have hwire : (ReturnValue.scalar d.server).wire = serialize ([d].map Serdes.Datum.server) := rfl
    have hread := List.head_eq_of_cons_eq (@deserialize_body classId funcId [d])
    rw [Memory.drop_zero] at hread
    have hrecv := (@recvChecked_serialize classId funcId asserts [d] hfits).map fun rcvBuffer =>
      ReturnValue.scalar (Serdes.Datum.server ⟨d.ty, Serdes.extract d.ty (body rcvBuffer)⟩)
    rwa [hread, ← hwire] at hrecv
  | tuple ds htwo =>
    have hrecv := (@recvChecked_serialize classId funcId asserts ds hfits).map fun rcvBuffer =>
      ReturnValue.tuple ((Serdes.deserialize 0 (ds.map Serdes.Datum.ty) (body rcvBuffer)).map
        Serdes.Datum.server)
    rwa [deserialize_body, ← ReturnValue.wire_tuple] at hrecv
  | @array ty es =>
    have hwire : (ReturnValue.array ty es).wire = images ty es := List.flatMap_singleton _ _
    have hsize : headerSize + ty.size * es.length = headerSize + (images ty es).length := by
      rw [length_images, Nat.mul_comm]
    rw [hwire, ← List.append_nil (sent classId funcId (images ty es)), Call.run, hsize]
    refine (recvChecked_decodes hcount).bind ?_
    rw [if_pos length_sent.ge, readElems_images body_sent]
    exact Parser.Decodes.lift _
  | @vector ty es =>
    have hwire : (ReturnValue.vector ty es).wire = prefixed (images ty es) :=
      List.flatMap_singleton _ _
    have hrecv := (@getPayloadDynamic_decodes classId funcId asserts _ hcount).map fun rcvBuffer =>
      ReturnValue.vector ty
        (readElems ty (rcvBuffer.length / ty.size) (Memory.ofBytes rcvBuffer))
    rwa [length_images, Nat.mul_div_cancel _ ty.size_pos,
      readElems_images (Memory.ofBytes_starts _), ← hwire] at hrecv
  | string bytes =>
    have hwire : (ReturnValue.string bytes).wire = prefixed bytes := List.flatMap_singleton _ _
    rw [hwire]
    exact (getPayloadDynamic_decodes hcount).map ReturnValue.string

/-- Where the bytes of a container cannot be counted, no result is returned. -/
theorem run_none (h : Matches v call) (hsized : v.Sized) (hcount : ¬ Countable v)
    (classId funcId : BitVec 16) :
    Parser.Rejects Ahead (call.run ⟨false, classId, funcId⟩) (sent classId funcId v.wire) := by
  cases h with
  | scalar d => exact absurd trivial hcount
  | tuple ds htwo => exact absurd trivial hcount
  | @array ty es =>
    have hwide : 2 ^ 31 ≤ headerSize + ty.size * es.length := by
      rw [Countable, length_images, Nat.mul_comm] at hcount
      exact not_lt.mp hcount
    intro sock rest _
    rw [Call.run]
    rcases hrecv : recvChecked ⟨false, classId, funcId⟩ (headerSize + ty.size * es.length) sock
      with ⟨_ | rcvBuffer, sock'⟩
    · rw [Parser.bind_none hrecv]
    · have hlen := length_of_recvChecked hrecv
      rw [Parser.bind_some hrecv, if_neg (by omega)]
      rfl
  | @vector ty es =>
    have hwire : (ReturnValue.vector ty es).wire = prefixed (images ty es) :=
      List.flatMap_singleton _ _
    rw [hwire]
    exact (getPayloadDynamic_rejects (hsized _ (List.mem_singleton_self _))
      (not_lt.mp hcount)).map _
  | string bytes =>
    have hwire : (ReturnValue.string bytes).wire = prefixed bytes := List.flatMap_singleton _ _
    rw [hwire]
    exact (getPayloadDynamic_rejects (hsized _ (List.mem_singleton_self _))
      (not_lt.mp hcount)).map _

/-- A value comes back just when its scalars fit the buffer of the session and
its bytes can be counted. -/
theorem returned_iff (h : Matches v call) (hsized : v.Sized) (classId funcId : BitVec 16) :
    RoundTrips classId funcId v call ↔ v.Fits ∧ Countable v := by
  have hsend := Response.send_eq hsized classId funcId
  constructor
  · rintro ⟨bs, hbs, hdecodes⟩
    have hfits : v.Fits := by
      by_contra hfits
      rw [if_neg hfits, hbs] at hsend
      contradiction
    refine ⟨hfits, ?_⟩
    by_contra hcount
    rw [if_pos hfits, hbs] at hsend
    obtain rfl := Option.some.inj hsend
    have hahead : Ahead (Socket.bytewise (sent classId funcId v.wire))
        (sent classId funcId v.wire ++ []) := by
      rw [List.append_nil]
      exact Socket.flat_bytewise _
    obtain ⟨sock', hrun, -⟩ := hdecodes false _ [] hahead
    have hnone := run_none h hsized hcount classId funcId _ [] hahead
    rw [hrun] at hnone
    contradiction
  · rintro ⟨hfits, hcount⟩
    rw [if_pos hfits] at hsend
    exact ⟨_, hsend, fun asserts => run_decodes h hfits hcount asserts classId funcId⟩

end RoundTrips

/-- A fraction and a flag. -/
theorem fractionFlag_returned :
    RoundTrips 2 0 (.tuple [⟨.double, 0x3ff8000000000000#64⟩, ⟨.bool, true⟩])
      (.tuple [.double, .bool]) :=
  (returned_iff (.tuple [⟨.double, 0x3ff8000000000000#64⟩, ⟨.bool, true⟩] (by decide))
    (ReturnValue.sized_tuple _) 2 0).mpr ⟨by decide, trivial⟩

end Koheron.CppReceive
