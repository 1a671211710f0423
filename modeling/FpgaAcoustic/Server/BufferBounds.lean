-- SUMMARY: Where the session reads in the payload buffer of a WebSocket command, and which payloads keep it inside.
import FpgaAcoustic.Bytes.Reader
import FpgaAcoustic.Server.Extent
import FpgaAcoustic.Server.Frame

/-!
# Bounds of the payload buffer

The session compares the length of a container with the size of the buffer. It
does not subtract what lies before the cursor. So that it stays inside, the
arguments must end within the buffer as the lengths in the payload lay them out.
-/

namespace Koheron

open Bytes

/-! ## What is local -/

theorem local_extract32 : Local 4 extract32 := by
  rw [local_iff]
  intro m m' h
  rw [extract32, extract32, h 0 (by decide), h 1 (by decide), h 2 (by decide), h 3 (by decide)]

theorem local_extract64 : Local 8 extract64 :=
  Local.map₂ (local_extract32.drop 4) (local_extract32.mono (by decide)) fun low high =>
    low.setWidth 64 + (high.setWidth 64 <<< 32)

theorem local_extract (ty : Scalar) : Local ty.size (extract ty) := by
  cases ty with
  | uint8 | int8 =>
    rw [local_iff]
    intro m m' h
    exact h 0 (by decide)
  | uint16 | int16 =>
    rw [local_iff]
    intro m m' h
    simp only [extract, extract16]
    rw [h 0 (by decide), h 1 (by decide)]
  | uint32 | int32 | float => exact local_extract32
  | uint64 | int64 | double => exact local_extract64
  | bool =>
    rw [local_iff]
    intro m m' h
    simp only [extract, extractBool]
    rw [h 0 (by decide)]
  | complexFloat =>
    have hre := local_extract32.mono (k := 8) (by decide)
    exact hre.map₂ (local_extract32.drop 4) Prod.mk
  | complexDouble =>
    have hre := local_extract64.mono (k := 16) (by decide)
    exact hre.map₂ (local_extract64.drop 8) Prod.mk

theorem local_deserialize (position : ℕ) (tys : List Scalar) :
    Local (position + requiredBufferSize tys) (deserialize position tys) := by
  induction tys generalizing position with
  | nil => exact local_const []
  | cons ty tys ih =>
    have hhead := ((local_extract ty).drop position).mono
      (Nat.le_add_right (position + ty.size) (requiredBufferSize tys))
    have htail := ih (position + ty.size)
    rw [requiredBufferSize, ← Nat.add_assoc]
    exact hhead.map₂ htail fun v ds => ⟨ty, v⟩ :: ds

theorem local_ofImage (ty : Scalar) : Local ty.size (ofImage ty) := by
  cases ty with
  | uint8 | int8 => exact local_take fun bs => BitVec.ofNat 8 (ofLeBytes bs)
  | uint16 | int16 => exact local_take fun bs => BitVec.ofNat 16 (ofLeBytes bs)
  | uint32 | int32 | float => exact local_take fun bs => BitVec.ofNat 32 (ofLeBytes bs)
  | uint64 | int64 | double => exact local_take fun bs => BitVec.ofNat 64 (ofLeBytes bs)
  | bool =>
    rw [local_iff]
    intro m m' h
    simp only [ofImage]
    rw [h 0 (by decide)]
  | complexFloat =>
    have hpart : Local 4 fun m => BitVec.ofNat 32 (ofLeBytes (m.take 4)) :=
      local_take fun bs => BitVec.ofNat 32 (ofLeBytes bs)
    exact Local.map₂ (hpart.mono (k := 8) (by decide)) (hpart.drop 4) Prod.mk
  | complexDouble =>
    have hpart : Local 8 fun m => BitVec.ofNat 64 (ofLeBytes (m.take 8)) :=
      local_take fun bs => BitVec.ofNat 64 (ofLeBytes bs)
    exact Local.map₂ (hpart.mono (k := 16) (by decide)) (hpart.drop 8) Prod.mk

theorem local_readElems (ty : Scalar) (n : ℕ) : Local (n * ty.size) (readElems ty n) := by
  induction n with
  | zero => exact local_const []
  | succ n ih =>
    have hhead := (local_ofImage ty).mono (Nat.le_add_right ty.size (n * ty.size))
    rw [Nat.succ_mul, Nat.add_comm]
    exact hhead.map₂ (ih.drop ty.size) List.cons

/-! ## The session over a reader -/

namespace Traced

def deserialize (tys : List Scalar) : Reader → List Datum × Reader :=
  Reader.read (requiredBufferSize tys) (Koheron.deserialize 0 tys)

def extractArray (ty : Scalar) (n : ℕ) : Reader → List ty.Val × Reader :=
  Reader.read (n * ty.size) (readElems ty n)

def toVector (ty : Scalar) (length : ℕ) : Reader → List ty.Val × Reader :=
  Reader.read (length * ty.size) (readElems ty length)

def toString (length : ℕ) : Reader → List Byte × Reader :=
  Reader.read length fun m => m.take length

def length : Reader → ℕ × Reader := Reader.read Scalar.uint32.size lengthField

def recvVector (ty : Scalar) (r : Reader) : (ℤ × List ty.Val) × Reader :=
  let (length, r) := length r
  if length > cmdPayloadBufferLen then ((-1, []), r)
  else
    let (vec, r) := toVector ty (length / ty.size) r
    ((0, vec), r)

def recvString (r : Reader) : (ℤ × List Byte) × Reader :=
  let (length, r) := length r
  if length > cmdPayloadBufferLen then ((-1, []), r)
  else
    let (str, r) := toString length r
    ((0, str), r)

def session : Session Reader where
  deserialize tys r := ((0, (deserialize tys r).1), (deserialize tys r).2)
  recvArray ty n r := ((0, (extractArray ty n r).1), (extractArray ty n r).2)
  recvVector := recvVector
  recvString := recvString

/-- The buffer of the reader. -/
def buffer (r : Reader) : Buffer := ⟨r.memory, r.position⟩

-- Proofs by `rfl` would run the length check on both sides.
theorem session_recvVector : session.recvVector = recvVector := by
  simp only [session]

theorem session_recvString : session.recvString = recvString := by
  simp only [session]

/-! ### The same as over a buffer -/

theorem checked_simulates {σ τ α : Type} {π : σ → τ} {f : σ → (ℤ × α) × σ}
    {g : τ → (ℤ × α) × τ} (h : ∀ s, g (π s) = ((f s).1, π (f s).2)) :
    Parser.Simulates π (checked f) (checked g) := by
  intro s
  simp only [checked, h s]
  split_ifs <;> rfl

theorem recvVector_buffer (ty : Scalar) (r : Reader) :
    Buffer.recvVector ty (buffer r) = ((recvVector ty r).1, buffer (recvVector ty r).2) := by
  have hlen : (buffer r).length = ((length r).1, buffer (length r).2) := rfl
  unfold Buffer.recvVector recvVector
  simp only [hlen]
  split_ifs <;> rfl

theorem recvString_buffer (r : Reader) :
    Buffer.recvString (buffer r) = ((recvString r).1, buffer (recvString r).2) := by
  have hlen : (buffer r).length = ((length r).1, buffer (length r).2) := rfl
  unfold Buffer.recvString recvString
  simp only [hlen]
  split_ifs <;> rfl

theorem parsePack_simulates (p : Pack) :
    Parser.Simulates buffer (session.parsePack p) (Buffer.session.parsePack p) := by
  cases p with
  | scalars tys | array ty n => exact (checked_simulates fun _ => rfl).map _
  | vector ty =>
    have hvec := (checked_simulates (recvVector_buffer ty)).map fun es => [Value.vector ty es]
    rwa [← session_recvVector, ← Buffer.session_recvVector] at hvec
  | string =>
    have hstr := (checked_simulates recvString_buffer).map fun bytes => [Value.string bytes]
    rwa [← session_recvString, ← Buffer.session_recvString] at hstr

/-- To keep what is read changes neither the arguments nor the cursor. -/
theorem parse_simulates (sig : List ArgType) :
    Parser.Simulates buffer (session.parse sig) (Buffer.session.parse sig) :=
  Parser.Simulates.seq parsePack_simulates _

/-! ### Reads -/

/-- A container after its length. -/
def container {α : Type} (size : ℕ → ℕ) (f : ℕ → Memory → α) : Parser Reader α :=
  (Parser.reading Scalar.uint32.size lengthField).bind fun length =>
    if length > cmdPayloadBufferLen then Parser.lift none else Parser.reading (size length) (f length)

theorem container_reads {α : Type} {size : ℕ → ℕ} {f : ℕ → Memory → α}
    (h : ∀ length, Local (size length) (f length)) : Parser.Reads (container size f) := by
  have hlength : Local Scalar.uint32.size lengthField := by
    intro m m' hm
    exact congrArg BitVec.toNat (local_extract .uint32 m m' hm)
  refine (Parser.Reads.reading hlength).bind ?_
  intro length
  split_ifs
  · exact Parser.Reads.lift none
  · exact Parser.Reads.reading (h length)

theorem container_refused {α : Type} {size : ℕ → ℕ} {f : ℕ → Memory → α} {r : Reader}
    (h : cmdPayloadBufferLen < lengthField r.ahead) : container size f r = (none, (length r).2) := by
  have hlen : Parser.reading Scalar.uint32.size lengthField r =
      (some (lengthField r.ahead), (length r).2) := rfl
  rw [container, Parser.bind_some hlen, if_pos h]
  rfl

theorem container_accepted {α : Type} {size : ℕ → ℕ} {f : ℕ → Memory → α} {r : Reader}
    (h : lengthField r.ahead ≤ cmdPayloadBufferLen) :
    container size f r =
      Parser.reading (size (lengthField r.ahead)) (f (lengthField r.ahead)) (length r).2 := by
  have hlen : Parser.reading Scalar.uint32.size lengthField r =
      (some (lengthField r.ahead), (length r).2) := rfl
  rw [container, Parser.bind_some hlen, if_neg h.not_gt]

theorem length_eq (r : Reader) : length r = (lengthField r.ahead, (length r).2) := rfl

/-- What checks a length and reads as much is a container. -/
theorem checked_eq_container {α : Type} {f : Reader → (ℤ × α) × Reader} {a : α} {size : ℕ → ℕ}
    {g : ℕ → Memory → α}
    (hrefused : ∀ r, cmdPayloadBufferLen < lengthField r.ahead → f r = ((-1, a), (length r).2))
    (haccepted : ∀ r, lengthField r.ahead ≤ cmdPayloadBufferLen → ∃ v r',
      (length r).2.read (size (lengthField r.ahead)) (g (lengthField r.ahead)) = (v, r') ∧
        f r = ((0, v), r')) :
    checked f = container size g := by
  funext r
  rcases lt_or_ge cmdPayloadBufferLen (lengthField r.ahead) with hgt | hle
  · rw [container_refused hgt, checked, hrefused r hgt]
    rfl
  · obtain ⟨v, r', hread, hf⟩ := haccepted r hle
    rw [container_accepted hle, checked, hf, Parser.reading, hread]
    rfl

theorem checked_recvVector (ty : Scalar) :
    checked (recvVector ty) =
      container (fun length => length / ty.size * ty.size)
        fun length => readElems ty (length / ty.size) := by
  apply checked_eq_container (a := [])
  · intro r hgt
    rw [recvVector, length_eq]
    simp only [if_pos hgt]
  · intro r hle
    refine ⟨_, _, rfl, ?_⟩
    rw [recvVector, length_eq]
    simp only [if_neg hle.not_gt, toVector, Reader.read]

theorem checked_recvString :
    checked recvString = container (fun length => length) fun length m => m.take length := by
  apply checked_eq_container (a := [])
  · intro r hgt
    rw [recvString, length_eq]
    simp only [if_pos hgt]
  · intro r hle
    refine ⟨_, _, rfl, ?_⟩
    rw [recvString, length_eq]
    simp only [if_neg hle.not_gt, toString, Reader.read]

theorem parsePack_reads (p : Pack) : Parser.Reads (session.parsePack p) := by
  cases p with
  | scalars tys =>
    have hlocal := local_deserialize 0 tys
    rw [Nat.zero_add] at hlocal
    exact (Parser.Reads.reading hlocal).map _
  | array ty n => exact (Parser.Reads.reading (local_readElems ty n)).map _
  | vector ty =>
    have hvec := (container_reads fun length => local_readElems ty (length / ty.size)).map
      fun es => [Value.vector ty es]
    rwa [← checked_recvVector, ← session_recvVector] at hvec
  | string =>
    have hlocal : ∀ length, Local length fun m => m.take length := fun length => local_take id
    have hstr := (container_reads hlocal).map fun bytes => [Value.string bytes]
    rwa [← checked_recvString, ← session_recvString] at hstr

/-- The arguments rest on what is read for them, and the cursor moves by reading. -/
theorem parse_reads (sig : List ArgType) : Parser.Reads (session.parse sig) := by
  apply Parser.Reads.seq
  intro p hp
  obtain ⟨pack, -, rfl⟩ := List.mem_map.mp hp
  exact parsePack_reads pack

end Traced

/-! ## Where the arguments end -/

/-- The bytes that are read from the first pack on. A length that is refused is
the last that is read. -/
def reach : List Pack → Memory → ℕ
  | [], _ => 0
  | p :: ps, m =>
    match p.extent m with
    | none => Scalar.uint32.size
    | some n => n + reach ps (m.drop n)

theorem reach_none {p : Pack} {m : Memory} (h : p.extent m = none) (ps : List Pack) :
    reach (p :: ps) m = Scalar.uint32.size := by
  rw [reach, h]

theorem reach_some {p : Pack} {m : Memory} {n : ℕ} (h : p.extent m = some n) (ps : List Pack) :
    reach (p :: ps) m = n + reach ps (m.drop n) := by
  rw [reach, h]

namespace Buffer

theorem checked_refused {α : Type} {f : Buffer → (ℤ × α) × Buffer} {b b' : Buffer} {a : α}
    (h : f b = ((-1, a), b')) : checked f b = (none, b') := by
  simp [checked, h]

/-- Of a container whose length is refused only the length is read. -/
theorem parsePack_refused {p : Pack} {b : Buffer} (h : p.extent b.begin = none) :
    session.parsePack p b = (none, b.skip Scalar.uint32.size) := by
  have hlen : b.length = (lengthField b.begin, b.skip Scalar.uint32.size) := rfl
  have hgt : ∀ {size}, containerExtent size b.begin = none →
      cmdPayloadBufferLen < lengthField b.begin := by
    intro size hext
    rw [containerExtent, ite_eq_left_iff] at hext
    by_contra hle
    exact absurd (hext hle) (by simp)
  cases p with
  | scalars tys | array ty n => simp [Pack.extent] at h
  | vector ty =>
    have hrecv : recvVector ty b = ((-1, []), b.skip Scalar.uint32.size) := by
      unfold recvVector
      simp only [hlen, if_pos (hgt h)]
    rw [Session.parsePack, session_recvVector, Parser.map_none (checked_refused hrecv)]
  | string =>
    have hrecv : recvString b = ((-1, []), b.skip Scalar.uint32.size) := by
      unfold recvString
      simp only [hlen, if_pos (hgt h)]
    rw [Session.parsePack, session_recvString, Parser.map_none (checked_refused hrecv)]

/-- The cursor stops where the packs do. -/
theorem seq_parsePack_reach (ps : List Pack) (b : Buffer) :
    (Parser.seq (ps.map session.parsePack) b).2 = b.skip (reach ps b.begin) := by
  induction ps generalizing b with
  | nil => rfl
  | cons p ps ih =>
    cases hext : p.extent b.begin with
    | none =>
      rw [List.map_cons, Parser.seq, Parser.bind_none (parsePack_refused hext), reach_none hext]
    | some n =>
      obtain ⟨vs, hvs⟩ := (parsePack_takes p b).accepts n hext
      have hrest := ih (b.skip n)
      rw [begin_skip, skip_skip] at hrest
      rw [List.map_cons, Parser.seq, Parser.bind_some hvs, reach_some hext, ← hrest]
      exact Parser.map_state

end Buffer

/-! ## The bounds -/

/-- Whatever is read for the arguments lies in the buffer, and the cursor ends there. -/
def InBounds (sig : List ArgType) (payload : Buffer) : Prop :=
  let r := (Traced.session.parse sig ⟨payload.data, payload.position, []⟩).2
  (∀ s ∈ r.reads, s.stop ≤ cmdPayloadBufferLen) ∧ r.position ≤ cmdPayloadBufferLen

/-- From the start of a buffer, the furthest read ends where the arguments do. -/
theorem inBounds_start (sig : List ArgType) (data : Memory) :
    InBounds sig ⟨data, 0⟩ ↔ reach (buildArgsPacks [] sig) data ≤ cmdPayloadBufferLen := by
  have htight := (Traced.parse_reads sig).tight _ (Reader.tight_start data)
  have hposition : (Traced.session.parse sig (Reader.start data)).2.position =
      reach (buildArgsPacks [] sig) data := by
    have hsim := congrArg Prod.snd (Traced.parse_simulates sig (Reader.start data))
    have hreach := Buffer.seq_parsePack_reach (buildArgsPacks [] sig) ⟨data, 0⟩
    have hbuffer := congrArg Buffer.position (hsim.symm.trans hreach)
    rw [Buffer.begin, Memory.drop_zero] at hbuffer
    exact hbuffer.trans (Nat.zero_add _)
  rw [← hposition]
  show (_ ∧ _) ↔ _
  rw [htight cmdPayloadBufferLen]
  exact and_iff_left_of_imp fun h => (htight _).mpr h

namespace WebSocket

theorem position_receiveCmd (cmd : Command) (s : State) :
    (receiveCmd cmd s).1.2.payload.position = cmd.payload.position := by
  have hdecode : ∀ s, (decodeRawStreamCmd cmd s).2.payload.position = cmd.payload.position := by
    intro s
    unfold decodeRawStreamCmd
    split_ifs <;> rfl
  simp only [receiveCmd]
  split_ifs
  · rfl
  · rfl
  · rfl
  · exact hdecode _
  · exact hdecode _

/-- A command begins with its cursor at the start. -/
theorem position_of_readCommand {s : State} {cmd : Command} (h : (readCommand s).1 = some cmd) :
    cmd.payload.position = 0 := by
  have hnew : s.newCommand.1.payload.position = 0 := rfl
  rw [← hnew, ← position_receiveCmd s.newCommand.1 s.newCommand.2]
  simp only [readCommand] at h
  split_ifs at h
  rw [Option.some.inj h]

/-- The session reads inside the buffer just when the arguments, with the lengths that
the client has put there, end in it. -/
theorem decoding_inBounds_iff {s : State} {cmd : Command} (h : (readCommand s).1 = some cmd)
    (sig : List ArgType) :
    InBounds sig cmd.payload ↔
      reach (buildArgsPacks [] sig) cmd.payload.data ≤ cmdPayloadBufferLen := by
  have hposition : cmd.payload = ⟨cmd.payload.data, 0⟩ := by
    rw [← position_of_readCommand h]
  rw [hposition]
  exact inBounds_start sig _

/-! ## A string -/

/-- A command whose only argument is a string of which nothing but its length is sent. -/
def lengthFrame (length : BitVec 32) : Frame where
  fin := true
  rsv := 0
  opcode := 2
  form := .small
  mask := fun i => BitVec.ofNat 8 (3 + i)
  payload := commandHeader [0, 0, 0, 0] 2 0 ++ append32 length
  carries := by
    rw [List.length_append, length_commandHeader rfl]
    show 8 + 4 ≤ 125
    decide

theorem length_payload_lengthFrame (length : BitVec 32) :
    (lengthFrame length).payload.length = 12 := by
  rw [lengthFrame, List.length_append, length_commandHeader rfl]
  rfl

/-- The session accepts the frame, and its buffer begins with the length. -/
theorem readCommand_lengthFrame (length : BitVec 32) :
    ∃ cmd, (readCommand (arriving [lengthFrame length])).1 = some cmd ∧
      lengthField cmd.payload.data = length.toNat := by
  have hidle := idle_arriving [lengthFrame length]
  rw [List.flatMap_cons, List.flatMap_nil] at hidle
  have hlen := length_payload_lengthFrame length
  have hsize : headerSize = 8 := rfl
  have haccepted : (lengthFrame length).Accepted := by
    refine ⟨.inr rfl, by omega, ?_, ?_⟩
    · rw [hlen]
      decide
    · rw [hlen]
      show 6 + 12 ≠ koheronReadStrLen
      decide
  obtain ⟨s', hread, -⟩ := readCommand_accepted hidle haccepted
  refine ⟨_, congrArg Prod.fst hread, ?_⟩
  have hdrop : (lengthFrame length).payload.drop headerSize = append32 length := by
    rw [lengthFrame, ← @length_commandHeader [0, 0, 0, 0] rfl 2 0]
    exact List.drop_left
  have hstarts : (((arriving [lengthFrame length]).stale 0).2.write
      ((lengthFrame length).payload.drop headerSize)).Starts (append32 length) := by
    rw [hdrop]
    exact Memory.write_starts _ _
  exact congrArg BitVec.toNat (extract32_append hstarts)

/-- A string that goes to the end of the buffer is read inside it, also where most of it is
what the buffer held before. -/
theorem fitting_decoding_inBounds :
    ∃ cmd, (readCommand (arriving [lengthFrame 262140])).1 = some cmd ∧
      InBounds [.string] cmd.payload := by
  obtain ⟨cmd, hread, hlen⟩ := readCommand_lengthFrame 262140
  refine ⟨cmd, hread, (decoding_inBounds_iff hread [.string]).mpr ?_⟩
  have hext : containerExtent 1 cmd.payload.data = some 262144 := by
    rw [containerExtent, hlen]
    decide
  show reach [.string] cmd.payload.data ≤ _
  rw [reach_some (p := .string) hext, reach]
  decide

/-- A string as long as the buffer passes the check and ends four bytes after it. -/
theorem bufferLength_not_inBounds :
    ∃ cmd, (readCommand (arriving [lengthFrame 262144])).1 = some cmd ∧
      ¬ InBounds [.string] cmd.payload := by
  obtain ⟨cmd, hread, hlen⟩ := readCommand_lengthFrame 262144
  refine ⟨cmd, hread, ?_⟩
  have hpayload : cmd.payload = ⟨cmd.payload.data, 0⟩ := by
    rw [← position_of_readCommand hread]
  have hext : containerExtent 1 cmd.payload.data = some 262148 := by
    rw [containerExtent, hlen]
    decide
  rw [hpayload, inBounds_start]
  show ¬ reach [.string] cmd.payload.data ≤ _
  rw [reach_some (p := .string) hext, reach]
  decide

end WebSocket

end Koheron
