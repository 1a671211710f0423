-- SUMMARY: How the Python client receives a response, and the values that it gets back unchanged.
import FpgaAcoustic.Bytes.Stream
import FpgaAcoustic.Bytes.Utf8
import FpgaAcoustic.Server.Response

/-!
# Responses in the Python client

The client reads a response with a struct format, or with the length that it
contains, or with the length of the array that it expects. Where a call raises
an exception or does not return, it has no result in the model.
-/

namespace Koheron.PyReceive

open Bytes

/-! ## Receiving -/

/-- `sock.recv(n)` for a positive `n`. At the end of the stream it returns nothing. -/
def sockRecv (n : ℕ) : Parser Socket (List Byte)
  | [] => (some [], [])
  | .error :: sock => (none, sock)
  | .data b bs :: sock =>
    (some ((b :: bs).take n),
      match (b :: bs).drop n with
      | [] => sock
      | c :: cs => .data c cs :: sock)

/-- `BUFF_SIZE`. -/
def buffSize : ℕ := 65535

/-- The loop of `recv_all` with `left` bytes to come, for so many passes. -/
def recvLoop : ℕ → ℕ → Parser Socket (List Byte)
  | _, 0 => Parser.pure []
  | 0, _ + 1 => Parser.lift none
  | passes + 1, left + 1 => (sockRecv (min (left + 1) buffSize)).bind fun chunk =>
      (recvLoop passes (left + 1 - chunk.length)).map (chunk ++ ·)

/-- `recv_all(n_bytes)`. A pass that receives anything receives a byte or more. At the
end of the stream the loop goes on forever, as `b''` is not equal to `''`. -/
def recvAll (nBytes : ℕ) : Parser Socket (List Byte) := recvLoop nBytes nBytes

/-! ## Formats -/

/-- `struct.calcsize`, of a format that begins with `>`. -/
def calcsize (fmt : List Scalar) : ℕ := requiredBufferSize fmt

/-- An item of `struct.unpack`. Complex numbers have no format. -/
def unpackItem : (ty : Scalar) → Memory → Option ty.Val
  | .bool, m => some (m 0 != 0)
  | .complexFloat, _ | .complexDouble, _ => none
  | ty, m => some (extract ty m)

def unpackItems : List Scalar → Memory → Option (List Datum)
  | [], _ => some []
  | ty :: fmt, m =>
    match unpackItem ty m, unpackItems fmt (m.drop ty.size) with
    | some v, some ds => some (⟨ty, v⟩ :: ds)
    | _, _ => none

/-- `struct.unpack(fmt, buff)`. -/
def unpack (fmt : List Scalar) (buff : List Byte) : Option (List Datum) :=
  if buff.length = calcsize fmt then unpackItems fmt (Memory.ofBytes buff) else none

/-- `np.frombuffer(buff, dtype)` for a little-endian `dtype`. -/
def frombuffer (dtype : Scalar) (buff : List Byte) : Option (List dtype.Val) :=
  if buff.length % dtype.size = 0 then
    some (readElems dtype (buff.length / dtype.size) (Memory.ofBytes buff))
  else none

/-- `buff.decode('utf8')`. -/
def decodeUtf8 (buff : List Byte) : Option (List Char) :=
  ((buff.map UInt8.ofBitVec).toByteArray.utf8Decode?).map Array.toList

/-! ## The calls -/

/-- What a call returns. -/
inductive Received
  | scalar (d : Datum)
  | tuple (ds : List Datum)
  | array (shape : List ℕ) (dtype : Scalar) (es : List dtype.Val)
  | str (s : List Char)
  deriving DecidableEq

/-- `>IHH`. -/
def headerFmt : List Scalar := [.uint32, .uint16, .uint16]

def recvDynamicPayload : Parser Socket (List Byte) :=
  (recvAll (calcsize (headerFmt ++ [.uint32]))).bind fun buff =>
    match unpack (headerFmt ++ [.uint32]) buff with
    | some [⟨.uint32, reserved⟩, _, _, ⟨.uint32, length⟩] =>
      if reserved = 0#32 then recvAll length.toNat else Parser.lift none
    | _ => Parser.lift none

/-- `t[0]` or `t`. -/
def unwrap : List Datum → Received
  | [d] => .scalar d
  | t => .tuple t

def recv (fmt : List Scalar) : Parser Socket Received :=
  (recvAll (calcsize (headerFmt ++ fmt))).bind fun buff =>
    Parser.lift ((unpack (headerFmt ++ fmt) buff).map fun t => unwrap (t.drop 3))

/-- What is not a tuple here is not iterable. -/
def recvTuple (fmt : List Scalar) : Parser Socket Received :=
  (recv fmt).bind fun
    | .tuple t => Parser.pure (.tuple t)
    | _ => Parser.lift none

def recvString : Parser Socket Received :=
  recvDynamicPayload.bind fun buff => Parser.lift ((decodeUtf8 buff).map .str)

def recvVector (dtype : Scalar) : Parser Socket Received :=
  recvDynamicPayload.bind fun buff =>
    Parser.lift ((frombuffer dtype buff).map fun es => .array [es.length] dtype es)

def recvArray (shape : List ℕ) (dtype : Scalar) : Parser Socket Received :=
  (recv []).bind fun _ =>
    (recvAll (dtype.size * shape.prod)).bind fun buff =>
      Parser.lift ((frombuffer dtype buff).bind fun es =>
        if es.length = shape.prod then some (.array shape dtype es) else none)

/-! ## What the calls decode -/

/-- The bytes that arrive, up to the first error. -/
def Ahead (sock : Socket) (bs : List Byte) : Prop := sock.flat = bs

/-- Whatever the chunks, a read finds some of the bytes that are to come. -/
theorem sockRecv_ahead {sock : Socket} {n : ℕ} {bs rest : List Byte} (h : Ahead sock (bs ++ rest))
    (hpos : 0 < n) (hle : n ≤ bs.length) :
    ∃ chunk bs' sock', sockRecv n sock = (some chunk, sock') ∧ 0 < chunk.length ∧
      bs = chunk ++ bs' ∧ Ahead sock' (bs' ++ rest) := by
  cases sock with
  | nil =>
    have hlen := congrArg List.length h
    rw [List.length_append, Socket.flat_nil, List.length_nil] at hlen
    omega
  | cons e sock =>
    cases e with
    | error =>
      have hlen := congrArg List.length h
      rw [List.length_append, Socket.flat_error, List.length_nil] at hlen
      omega
    | data b cs =>
      have hflat : b :: cs ++ Socket.flat sock = bs ++ rest := h
      rcases Nat.lt_or_ge n (b :: cs).length with hlt | hge
      · -- A part of the chunk is left.
        obtain ⟨c, ds, hdrop⟩ : ∃ c ds, (b :: cs).drop n = c :: ds := by
          apply List.exists_cons_of_ne_nil
          simpa using hlt
        have htake : (b :: cs).take n = bs.take n := by
          have happ := congrArg (List.take n) hflat
          rwa [List.take_append_of_le_length hlt.le, List.take_append_of_le_length hle] at happ
        have hrest : (b :: cs).drop n ++ Socket.flat sock = bs.drop n ++ rest := by
          have happ := congrArg (List.drop n) hflat
          rwa [List.drop_append_of_le_length hlt.le, List.drop_append_of_le_length hle] at happ
        refine ⟨bs.take n, bs.drop n, .data c ds :: sock, ?_, ?_, ?_, ?_⟩
        · rw [sockRecv, hdrop, htake]
        · rw [List.length_take_of_le hle]
          exact hpos
        · rw [List.take_append_drop]
        · rw [hdrop] at hrest
          exact hrest
      · obtain ⟨ds, rfl⟩ : b :: cs <+: bs :=
          List.prefix_of_prefix_length_le ⟨_, hflat⟩ (List.prefix_append bs rest) (hge.trans hle)
        refine ⟨b :: cs, ds, sock, ?_, Nat.succ_pos _, rfl, ?_⟩
        · rw [sockRecv, List.take_of_length_le hge, List.drop_of_length_le hge]
        · rw [List.append_assoc] at hflat
          exact List.append_cancel_left hflat

theorem recvLoop_decodes (passes : ℕ) {bs : List Byte} (hle : bs.length ≤ passes) :
    Parser.Decodes Ahead (recvLoop passes bs.length) bs bs := by
  induction passes generalizing bs with
  | zero =>
    obtain rfl := List.length_eq_zero_iff.mp (Nat.le_zero.mp hle)
    exact Parser.Decodes.pure []
  | succ passes ih =>
    intro sock rest h
    rcases hbs : bs with _ | ⟨b, bs₀⟩
    · subst hbs
      exact ⟨sock, rfl, h⟩
    · rw [← hbs]
      have hlen : bs.length = bs₀.length + 1 := by rw [hbs, List.length_cons]
      have hsize : 0 < buffSize := by decide
      obtain ⟨chunk, bs', sock', hrecv, hpos, hsplit, hahead⟩ :=
        sockRecv_ahead h (n := min (bs₀.length + 1) buffSize) (by omega) (by omega)
      have hlen' : bs.length = chunk.length + bs'.length := by rw [hsplit, List.length_append]
      obtain ⟨sock'', hloop, hrest⟩ := @ih bs' (by omega) sock' rest hahead
      refine ⟨sock'', ?_, hrest⟩
      have hleft : bs₀.length + 1 - chunk.length = bs'.length := by omega
      rw [hlen, recvLoop, Parser.bind_some hrecv, hleft, Parser.map_some hloop, hsplit]

theorem recvAll_decodes (bs : List Byte) : Parser.Decodes Ahead (recvAll bs.length) bs bs :=
  recvLoop_decodes bs.length le_rfl

/-- The types that have a format. -/
def Plain : Scalar → Prop
  | .complexFloat | .complexDouble => False
  | _ => True

instance : (ty : Scalar) → Decidable (Plain ty)
  | .complexFloat | .complexDouble => inferInstanceAs (Decidable False)
  | .uint8 | .int8 | .uint16 | .int16 | .uint32 | .int32 | .uint64 | .int64 | .float | .double
  | .bool => inferInstanceAs (Decidable True)

theorem unpackItem_append {ty : Scalar} {v : ty.Val} {m : Memory} (hty : Plain ty)
    (h : m.Starts (Koheron.append ty v)) : unpackItem ty m = some v := by
  cases ty with
  | complexFloat | complexDouble => exact hty.elim
  | bool =>
    cases v with
    | false =>
      have h0 : m 0 = 0 := (Memory.starts_cons.mp (show m.Starts [0] from h)).1
      rw [unpackItem, h0]
      rfl
    | true =>
      have h0 : m 0 = 1 := (Memory.starts_cons.mp (show m.Starts [1] from h)).1
      rw [unpackItem, h0]
      rfl
  | _ => exact congrArg some (extract_append h)

theorem unpackItems_serialize {ds : List Datum} (hplain : ∀ d ∈ ds, Plain d.ty) {m : Memory}
    (h : m.Starts (serialize ds)) : unpackItems (ds.map Datum.ty) m = some ds := by
  induction ds generalizing m with
  | nil => rfl
  | cons d ds ih =>
    obtain ⟨hd, hds⟩ := List.forall_mem_cons.mp hplain
    obtain ⟨hfirst, hrest⟩ := Memory.starts_append.mp h
    rw [length_append] at hrest
    rw [List.map_cons, unpackItems, unpackItem_append hd hfirst, ih hds hrest]

theorem unpack_serialize {ds : List Datum} (hplain : ∀ d ∈ ds, Plain d.ty) :
    unpack (ds.map Datum.ty) (serialize ds) = some ds := by
  rw [unpack, calcsize, if_pos (length_serialize ds),
    unpackItems_serialize hplain (Memory.ofBytes_starts _)]

theorem frombuffer_images (ty : Scalar) (es : List ty.Val) :
    frombuffer ty (images ty es) = some es := by
  rw [frombuffer, length_images, Nat.mul_mod_left, if_pos rfl,
    Nat.mul_div_cancel _ ty.size_pos, readElems_images (Memory.ofBytes_starts _)]

theorem decodeUtf8_utf8 (s : List Char) : decodeUtf8 (utf8 s) = some s := by
  have hbytes : (utf8 s).map UInt8.ofBitVec = s.flatMap String.utf8EncodeChar := by
    have hid : UInt8.ofBitVec ∘ UInt8.toBitVec = id := rfl
    simp [utf8, List.map_flatMap, hid]
  rw [decodeUtf8, hbytes]
  show (s.utf8Encode.utf8Decode?).map Array.toList = some s
  rw [List.utf8Decode?_utf8Encode]
  rfl

section Calls

variable {classId funcId : BitVec 16}

theorem header_plain : ∀ d ∈ Response.header classId funcId, Plain d.ty := by
  simp [Response.header, Plain]

/-- The header and scalars, with a struct format. -/
theorem recv_decodes {ds : List Datum} (hplain : ∀ d ∈ ds, Plain d.ty) :
    Parser.Decodes Ahead (recv (ds.map Datum.ty))
      (serialize (Response.header classId funcId) ++ serialize ds) (unwrap ds) := by
  have hfmt : headerFmt ++ ds.map Datum.ty =
      (Response.header classId funcId ++ ds).map Datum.ty := rfl
  have hunpack := @unpack_serialize (Response.header classId funcId ++ ds)
    (List.forall_mem_append.mpr ⟨header_plain, hplain⟩)
  have hdecodes := recvAll_decodes (serialize (Response.header classId funcId ++ ds))
  rw [length_serialize] at hdecodes
  rw [← serialize_append, ← List.append_nil (serialize _), recv, hfmt]
  refine hdecodes.bind ?_
  rw [hunpack]
  exact Parser.Decodes.lift _

/-- A container whose length fits 32 bits. -/
theorem recvDynamicPayload_decodes {bs : List Byte} (h : bs.length < 2 ^ 32) :
    Parser.Decodes Ahead recvDynamicPayload
      (serialize (Response.header classId funcId) ++ prefixed bs) bs := by
  let ds : List Datum := Response.header classId funcId ++ [⟨.uint32, BitVec.ofNat 32 bs.length⟩]
  have hfmt : headerFmt ++ [.uint32] = ds.map Datum.ty := rfl
  have hbytes : serialize (Response.header classId funcId) ++ prefixed bs = serialize ds ++ bs := by
    rw [prefixed, ← List.append_assoc, serialize_append]
    rfl
  have hplain : ∀ d ∈ ds, Plain d.ty := by
    simp [ds, Response.header, Plain]
  have hunpack := unpack_serialize hplain
  have hdecodes := recvAll_decodes (serialize ds)
  rw [length_serialize] at hdecodes
  rw [hbytes, recvDynamicPayload, hfmt]
  refine hdecodes.bind ?_
  rw [hunpack]
  have hlength : (BitVec.ofNat 32 bs.length).toNat = bs.length := by
    rw [BitVec.toNat_ofNat, Nat.mod_eq_of_lt h]
  show Parser.Decodes Ahead (recvAll (BitVec.ofNat 32 bs.length).toNat) bs bs
  rw [hlength]
  exact recvAll_decodes bs

end Calls

/-! ## Round trips -/

/-- The calls of the client. -/
inductive Call
  | recv (fmt : List Scalar)
  | recvTuple (fmt : List Scalar)
  | recvArray (shape : List ℕ) (dtype : Scalar)
  | recvVector (dtype : Scalar)
  | recvString

def Call.run : Call → Parser Socket Received
  | recv fmt => PyReceive.recv fmt
  | recvTuple fmt => PyReceive.recvTuple fmt
  | recvArray shape dtype => PyReceive.recvArray shape dtype
  | recvVector dtype => PyReceive.recvVector dtype
  | recvString => PyReceive.recvString

/-- The call for what a driver method returns, and the same value in Python. -/
inductive Matches : ReturnValue → Call → Received → Prop
  | scalar {d : Datum} (hd : Plain d.ty) : Matches (.scalar d) (.recv [d.ty]) (.scalar d)
  | tuple {ds : List Datum} (hds : ∀ d ∈ ds, Plain d.ty) (htwo : 2 ≤ ds.length) :
      Matches (.tuple ds) (.recvTuple (ds.map Datum.ty)) (.tuple ds)
  | array {ty : Scalar} {es : List ty.Val} {shape : List ℕ} (hty : Plain ty)
      (hshape : shape.prod = es.length) :
      Matches (.array ty es) (.recvArray shape ty) (.array shape ty es)
  | vector {ty : Scalar} {es : List ty.Val} (hty : Plain ty) :
      Matches (.vector ty es) (.recvVector ty) (.array [es.length] ty es)
  | string {s : List Char} : Matches (.string (utf8 s)) .recvString (.str s)

/-- Whatever the chunks and whatever follows, the call takes what the session sends,
and returns the value. -/
def RoundTrips (classId funcId : BitVec 16) (v : ReturnValue) (call : Call) (result : Received) :
    Prop :=
  ∃ bs, Response.send classId funcId v = some bs ∧ Parser.Decodes Ahead call.run bs result

section RoundTrips

variable {v : ReturnValue} {call : Call} {result : Received}

theorem run_decodes (h : Matches v call result) (hsized : v.Sized) (classId funcId : BitVec 16) :
    Parser.Decodes Ahead call.run (serialize (Response.header classId funcId) ++ v.wire)
      result := by
  cases h with
  | @scalar d hd =>
    have hwire : (ReturnValue.scalar d).wire = serialize [d] := rfl
    rw [hwire]
    exact @recv_decodes classId funcId [d] (by simpa using hd)
  | @tuple ds hds htwo =>
    have hunwrap : unwrap ds = .tuple ds := by
      match ds, htwo with
      | _ :: _ :: _, _ => rfl
    have hrecv := @recv_decodes classId funcId ds hds
    rw [hunwrap] at hrecv
    rw [ReturnValue.wire_tuple, ← List.append_nil (_ ++ _)]
    exact hrecv.bind (Parser.Decodes.pure _)
  | @array ty es shape hty hshape =>
    have hwire : (ReturnValue.array ty es).wire = images ty es := List.flatMap_singleton _ _
    have hsize : ty.size * shape.prod = (images ty es).length := by
      rw [length_images, hshape, Nat.mul_comm]
    have hheader := @recv_decodes classId funcId [] (by simp)
    rw [serialize_nil, List.append_nil] at hheader
    rw [hwire, ← List.append_nil (images ty es)]
    refine hheader.bind ?_
    rw [hsize]
    refine (recvAll_decodes _).bind ?_
    rw [frombuffer_images, Option.bind_some, if_pos hshape.symm]
    exact Parser.Decodes.lift _
  | @vector ty es hty =>
    have hwire : (ReturnValue.vector ty es).wire = prefixed (images ty es) :=
      List.flatMap_singleton _ _
    have hlen : (images ty es).length < 2 ^ 32 := hsized _ (List.mem_singleton_self _)
    rw [hwire, ← List.append_nil (_ ++ _)]
    refine (recvDynamicPayload_decodes hlen).bind ?_
    rw [frombuffer_images]
    exact Parser.Decodes.lift _
  | @string s =>
    have hwire : (ReturnValue.string (utf8 s)).wire = prefixed (utf8 s) :=
      List.flatMap_singleton _ _
    have hlen : (utf8 s).length < 2 ^ 32 := hsized _ (List.mem_singleton_self _)
    rw [hwire, ← List.append_nil (_ ++ _)]
    refine (recvDynamicPayload_decodes hlen).bind ?_
    rw [decodeUtf8_utf8]
    exact Parser.Decodes.lift _

/-- A value comes back just when its scalars fit the buffer of the serializer. -/
theorem response_roundTrips_iff (h : Matches v call result) (hsized : v.Sized)
    (classId funcId : BitVec 16) : RoundTrips classId funcId v call result ↔ v.Fits := by
  have hsend := Response.send_eq hsized classId funcId
  constructor
  · rintro ⟨bs, hbs, -⟩
    by_contra hfits
    rw [if_neg hfits, hbs] at hsend
    contradiction
  · intro hfits
    rw [if_pos hfits] at hsend
    exact ⟨_, hsend, run_decodes h hsized classId funcId⟩

end RoundTrips

/-- A number, a flag and a fraction. -/
def threeScalars : List Datum := [⟨.uint32, 7⟩, ⟨.bool, true⟩, ⟨.double, 0x3ff8000000000000⟩]

theorem threeScalars_roundTrips :
    RoundTrips 2 0 (.tuple threeScalars) (.recvTuple [.uint32, .bool, .double])
      (.tuple threeScalars) :=
  (response_roundTrips_iff (.tuple (by decide) (by decide))
    (ReturnValue.sized_tuple threeScalars) 2 0).mpr (by decide)

/-- `n` numbers of eight bytes. -/
def doubles (n : ℕ) : List Datum := List.replicate n ⟨.double, 0#64⟩

theorem length_serialize_doubles (n : ℕ) : (serialize (doubles n)).length = n * 8 := by
  induction n with
  | zero => rfl
  | succ n ih =>
    have hcons : doubles (n + 1) = ⟨.double, 0#64⟩ :: doubles n := rfl
    rw [hcons, serialize_cons, List.length_append, ih, length_append, Nat.succ_mul, Nat.add_comm]
    rfl

/-- With 129 numbers, the last one is stored after the end of the buffer. -/
theorem manyDoubles_not_roundTrips :
    Matches (.tuple (doubles 129)) (.recvTuple (List.replicate 129 .double))
        (.tuple (doubles 129)) ∧
      ¬ RoundTrips 2 0 (.tuple (doubles 129)) (.recvTuple (List.replicate 129 .double))
        (.tuple (doubles 129)) := by
  have hplain : ∀ d ∈ doubles 129, Plain d.ty := by
    intro d hd
    rw [List.eq_of_mem_replicate hd]
    decide
  have htypes : (doubles 129).map Datum.ty = List.replicate 129 .double := List.map_replicate
  have hfits : ¬ (ReturnValue.tuple (doubles 129)).Fits := by
    rw [ReturnValue.Fits, ReturnValue.scalars, length_serialize_doubles]
    decide
  refine ⟨?_, ?_⟩
  · rw [← htypes]
    refine .tuple hplain ?_
    rw [doubles, List.length_replicate]
    decide
  · rintro ⟨bs, hbs, -⟩
    rw [Response.send_eq (ReturnValue.sized_tuple _), if_neg hfits] at hbs
    exact Option.some_ne_none bs hbs.symm

end Koheron.PyReceive
