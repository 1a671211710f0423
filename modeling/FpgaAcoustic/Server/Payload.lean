-- SUMMARY: The buffer of a WebSocket command with its cursor, and how the session reads arguments out of it.
import FpgaAcoustic.Server.Operation

/-!
# Command payloads

Over a WebSocket the arguments are in the command already. The session takes
them out of a buffer of fixed size with a cursor. Nothing in the buffer says
where the payload ends.
-/

namespace Koheron

open Bytes

/-- `CMD_PAYLOAD_BUFFER_LEN`. -/
def cmdPayloadBufferLen : ℕ := 16384 * 16

theorem cmdPayloadBufferLen_lt : cmdPayloadBufferLen < 2 ^ 32 := by
  unfold cmdPayloadBufferLen
  decide

/-- The data of a buffer and the cursor in it. -/
structure Buffer where
  data : Memory
  position : ℕ

namespace Buffer

/-- `begin()`. -/
def begin (b : Buffer) : Memory := b.data.drop b.position

/-- The cursor `n` bytes on. -/
def skip (b : Buffer) (n : ℕ) : Buffer := { b with position := b.position + n }

def deserialize (tys : List Scalar) (b : Buffer) : List Datum × Buffer :=
  (Koheron.deserialize 0 tys b.begin, b.skip (requiredBufferSize tys))

def extractArray (ty : Scalar) (n : ℕ) (b : Buffer) : List ty.Val × Buffer :=
  (readElems ty n b.begin, b.skip (n * ty.size))

def toVector (ty : Scalar) (length : ℕ) (b : Buffer) : List ty.Val × Buffer :=
  (readElems ty length b.begin, b.skip (length * ty.size))

def toString (length : ℕ) (b : Buffer) : List Byte × Buffer :=
  (b.begin.take length, b.skip length)

/-- The length field of a container: `std::get<0>(deserialize<uint32_t>())`. -/
def length (b : Buffer) : ℕ × Buffer :=
  ((extract .uint32 b.begin).toNat, b.skip Scalar.uint32.size)

/-- `recv(std::vector<T>&)`. The vector of a failed call is not used. -/
def recvVector (ty : Scalar) (b : Buffer) : (ℤ × List ty.Val) × Buffer :=
  let (length, b) := b.length
  if length > cmdPayloadBufferLen then ((-1, []), b)
  else
    let (vec, b) := b.toVector ty (length / ty.size)
    ((0, vec), b)

/-- `recv(std::string&)`. The string of a failed call is not used. -/
def recvString (b : Buffer) : (ℤ × List Byte) × Buffer :=
  let (length, b) := b.length
  if length > cmdPayloadBufferLen then ((-1, []), b)
  else
    let (str, b) := b.toString length
    ((0, str), b)

/-- The functions of a WebSocket session as the generated code calls them. -/
def session : Session Buffer where
  deserialize tys b := ((0, (b.deserialize tys).1), (b.deserialize tys).2)
  recvArray ty n b := ((0, (b.extractArray ty n).1), (b.extractArray ty n).2)
  recvVector := recvVector
  recvString := recvString

-- Proofs by `rfl` would run the length check on both sides.
theorem session_recvVector : session.recvVector = recvVector := by
  simp only [session]

theorem session_recvString : session.recvString = recvString := by
  simp only [session]

/-! ## Complete payloads -/

/-- The bytes from the cursor to the end of a payload that ends at `total`. -/
def Ahead (total : ℕ) (b : Buffer) (bs : List Byte) : Prop :=
  b.begin.Starts bs ∧ b.position + bs.length = total

theorem begin_skip (b : Buffer) (n : ℕ) : (b.skip n).begin = b.begin.drop n :=
  (Memory.drop_drop b.data b.position n).symm

theorem Ahead.starts {total : ℕ} {b : Buffer} {bs rest : List Byte}
    (h : Ahead total b (bs ++ rest)) : b.begin.Starts bs :=
  (Memory.starts_append.mp h.1).1

theorem Ahead.skip {total : ℕ} {b : Buffer} {bs rest : List Byte}
    (h : Ahead total b (bs ++ rest)) : Ahead total (b.skip bs.length) rest := by
  obtain ⟨hstarts, htotal⟩ := h
  refine ⟨?_, ?_⟩
  · rw [begin_skip]
    exact (Memory.starts_append.mp hstarts).2
  · rw [List.length_append] at htotal
    show b.position + bs.length + rest.length = total
    omega

variable {total : ℕ}

theorem length_ahead {b : Buffer} {n : ℕ} {rest : List Byte} (hn : n < 2 ^ 32)
    (h : Ahead total b (append32 (BitVec.ofNat 32 n) ++ rest)) :
    ∃ b', b.length = (n, b') ∧ Ahead total b' rest := by
  refine ⟨b.skip Scalar.uint32.size, ?_, h.skip⟩
  have hext : extract .uint32 b.begin = BitVec.ofNat 32 n := extract32_append h.starts
  rw [length, hext, BitVec.toNat_ofNat, Nat.mod_eq_of_lt hn]

theorem deserialize_returns (ds : List Datum) :
    Returns (Ahead total) (session.deserialize (ds.map Datum.ty)) (serialize ds) 0 ds := by
  intro b rest h
  refine ⟨b.skip (serialize ds).length, ?_, h.skip⟩
  have hval : Koheron.deserialize 0 (ds.map Datum.ty) b.begin = ds := by
    apply deserialize_serialize
    rw [Memory.drop_zero]
    exact h.starts
  rw [length_serialize]
  simp only [session, deserialize, hval]

theorem recvArray_returns (ty : Scalar) (es : List ty.Val) :
    Returns (Ahead total) (session.recvArray ty es.length) (images ty es) 0 es := by
  intro b rest h
  refine ⟨b.skip (images ty es).length, ?_, h.skip⟩
  rw [length_images]
  simp only [session, extractArray, readElems_images h.starts]

theorem recvVector_returns (ty : Scalar) (es : List ty.Val)
    (hle : (images ty es).length ≤ cmdPayloadBufferLen) :
    Returns (Ahead total) (recvVector ty) (prefixed (images ty es)) 0 es := by
  intro b rest h
  rw [prefixed, List.append_assoc] at h
  obtain ⟨b', hlen, h'⟩ := length_ahead (lt_of_le_of_lt hle cmdPayloadBufferLen_lt) h
  refine ⟨b'.skip (images ty es).length, ?_, h'.skip⟩
  have hdiv : (images ty es).length / ty.size = es.length := by
    rw [length_images, Nat.mul_div_cancel _ ty.size_pos]
  have hvec : b'.toVector ty es.length = (es, b'.skip (images ty es).length) := by
    rw [toVector, readElems_images h'.starts, length_images]
  unfold recvVector
  simp only [hlen, hdiv, hvec, if_neg (not_lt.mpr hle)]

theorem recvString_returns (bytes : List Byte) (hle : bytes.length ≤ cmdPayloadBufferLen) :
    Returns (Ahead total) recvString (prefixed bytes) 0 bytes := by
  intro b rest h
  rw [prefixed, List.append_assoc] at h
  obtain ⟨b', hlen, h'⟩ := length_ahead (lt_of_le_of_lt hle cmdPayloadBufferLen_lt) h
  refine ⟨b'.skip bytes.length, ?_, h'.skip⟩
  have hstr : b'.toString bytes.length = (bytes, b'.skip bytes.length) := by
    rw [toString, show b'.begin.take bytes.length = bytes from h'.starts]
  unfold recvString
  simp only [hlen, hstr, if_neg (not_lt.mpr hle)]

/-- A pack that the buffer holds completely is decoded. -/
theorem parsePack_complete {g : Group} (hle : g.body.length ≤ cmdPayloadBufferLen) :
    Parser.Decodes (Ahead total) (session.parsePack g.pack) g.wire g.values := by
  cases g with
  | scalars ds => exact ((deserialize_returns ds).decodes le_rfl).map _
  | array ty es => exact ((recvArray_returns ty es).decodes le_rfl).map _
  | vector ty es =>
    have hret := @recvVector_returns total ty es hle
    rw [← session_recvVector] at hret
    exact (hret.decodes le_rfl).map _
  | string bytes =>
    have hret := @recvString_returns total bytes hle
    rw [← session_recvString] at hret
    exact (hret.decodes le_rfl).map _

end Buffer

end Koheron
