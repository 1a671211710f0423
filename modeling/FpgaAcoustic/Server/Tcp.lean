-- SUMMARY: The TCP session: how it reads a command header, scalars, arrays, vectors and strings, and what each read returns.
import FpgaAcoustic.Bytes.Stream
import FpgaAcoustic.Server.Operation

/-!
# TCP sessions

The server is built for a 32-bit target: an `int` has 32 bits, and so has the
`size_t` by which the length of a vector is divided, as an `int64_t`. A resize
is taken to succeed.
-/

namespace Koheron

open Bytes

namespace Tcp

/-- What a buffer or an argument holds before it is written. -/
structure Stale where
  buffer : Memory
  vector : (ty : Scalar) → List ty.Val
  string : List Byte

/-- A connection, and the storage that the coming calls find. -/
structure State where
  sock : Socket
  stale : ℕ → Stale

/-- The storage for the next call. -/
def State.next (s : State) : Stale × State :=
  (s.stale 0, { s with stale := fun i => s.stale (i + 1) })

/-- `rcv_n_bytes`, with the buffer after it. -/
def rcvNBytes (buffer : Memory) (nBytes : ℕ) (s : State) : (ℤ × Memory) × State :=
  let r := s.sock.receive nBytes
  let ret : ℤ :=
    match r.1 with
    | .full => nBytes
    | .closed => 0
    | .error => -1
  ((ret, buffer.write r.2.1), { s with sock := r.2.2 })

def getPackLength (s : State) : ℤ × State :=
  let (stale, s) := s.next
  let ((err, buff), s) := rcvNBytes stale.buffer Scalar.uint32.size s
  if err < 0 then (-1, s) else ((extract .uint32 buff).toNat, s)

/-- `deserialize<Tp...>`. -/
def deserialize (tys : List Scalar) (s : State) : (ℤ × List Datum) × State :=
  match tys with
  | [] => ((0, []), s)
  | _ :: _ =>
    let (stale, s) := s.next
    let ((err, buff), s) := rcvNBytes stale.buffer (requiredBufferSize tys) s
    ((toInt32 err, Koheron.deserialize 0 tys buff), s)

/-- `recv(std::array<T, N>&)`. -/
def recvArray (ty : Scalar) (n : ℕ) (s : State) : (ℤ × List ty.Val) × State :=
  let (stale, s) := s.next
  let ((err, arr), s) := rcvNBytes stale.buffer (n * ty.size) s
  ((toInt32 err, readElems ty n arr), s)

/-- `recv(std::vector<T>&)`, with the vector after it. -/
def recvVector (ty : Scalar) (vec : List ty.Val) (s : State) : (ℤ × List ty.Val) × State :=
  let (packLength, s) := getPackLength s
  let length := packLength.tdiv ty.size
  if length < 0 then ((-1, vec), s)
  else
    let vec := vec.takeD length.toNat ty.zero
    let ((err, data), s) :=
      rcvNBytes (Memory.ofBytes (images ty vec)) (length.toNat * ty.size) s
    ((toInt32 err, readElems ty length.toNat data), s)

/-- `recv(std::string&)`, with the string after it. -/
def recvString (str : List Byte) (s : State) : (ℤ × List Byte) × State :=
  let (length, s) := getPackLength s
  if length < 0 then ((-1, str), s)
  else
    let str := str.takeD length.toNat 0
    let ((err, data), s) := rcvNBytes (Memory.ofBytes str) length.toNat s
    ((toInt32 err, data.take length.toNat), s)

/-- The functions as the generated code calls them. -/
def session : Session State where
  deserialize := deserialize
  recvArray := recvArray
  recvVector ty s := recvVector ty (s.next.1.vector ty) s.next.2
  recvString s := recvString s.next.1.string s.next.2

/-- `read_command`: no ids if the session is to end. -/
def readCommand : Parser State (BitVec 16 × BitVec 16) := fun s =>
  let (stale, s) := s.next
  let ((err, header), s) := rcvNBytes stale.buffer headerSize s
  if toInt32 err ≤ 0 then (none, s) else (some (headerIds header), s)

/-- One pass of the loop of `run`. -/
def serve (table : Table) : Parser State Call :=
  readCommand.bind (execute session table)

/-! ## Complete data -/

/-- The bytes that the peer has sent and the session has not read. -/
def Ahead (s : State) (bs : List Byte) : Prop := s.sock.flat = bs

/-- A connection on which the bytes come one by one. -/
theorem ahead_bytewise (bs : List Byte) (stale : ℕ → Stale) :
    Ahead ⟨Socket.bytewise bs, stale⟩ (bs ++ []) := by
  rw [List.append_nil]
  exact Socket.flat_bytewise bs

theorem next_ahead {s : State} {bs : List Byte} (h : Ahead s bs) : Ahead s.next.2 bs := h

theorem rcvNBytes_full {s : State} {bs rest : List Byte} (h : Ahead s (bs ++ rest))
    (buffer : Memory) :
    ∃ s', rcvNBytes buffer bs.length s = (((bs.length : ℤ), buffer.write bs), s') ∧
      Ahead s' rest := by
  obtain ⟨sock', hrec, hflat, -⟩ := Socket.receive_full h
  refine ⟨{ s with sock := sock' }, ?_, hflat⟩
  simp only [rcvNBytes, hrec]

theorem getPackLength_full {s : State} {n : BitVec 32} {rest : List Byte}
    (h : Ahead s (append32 n ++ rest)) :
    ∃ s', getPackLength s = ((n.toNat : ℤ), s') ∧ Ahead s' rest := by
  obtain ⟨s', hrcv, hrest⟩ := rcvNBytes_full (next_ahead h) s.next.1.buffer
  refine ⟨s', ?_, hrest⟩
  have hext : extract .uint32 (s.next.1.buffer.write (append32 n)) = n :=
    extract32_append (Memory.write_starts _ _)
  have hlen : (append32 n).length = Scalar.uint32.size := rfl
  rw [hlen] at hrcv
  have hret : getPackLength s =
      (((extract .uint32 (s.next.1.buffer.write (append32 n))).toNat : ℤ), s') := by
    unfold getPackLength
    simp only [hrcv]
    rfl
  rw [hret, hext]

/-- The received length is the one of the container, also where not all of its
bytes arrive. -/
theorem length_recvVector {ty : Scalar} {vec : List ty.Val} {s : State} {n : BitVec 32}
    {rest : List Byte} (h : Ahead s (append32 n ++ rest)) :
    (recvVector ty vec s).1.2.length = n.toNat / ty.size := by
  obtain ⟨s', hlen, -⟩ := getPackLength_full h
  have hdiv : (n.toNat : ℤ).tdiv ty.size = (n.toNat / ty.size : ℕ) := rfl
  unfold recvVector
  simp only [hlen, hdiv]
  rw [if_neg (Int.natCast_nonneg _).not_gt, Int.toNat_natCast]
  exact length_readElems _ _ _

theorem length_recvString {str : List Byte} {s : State} {n : BitVec 32} {rest : List Byte}
    (h : Ahead s (append32 n ++ rest)) : (recvString str s).1.2.length = n.toNat := by
  obtain ⟨s', hlen, -⟩ := getPackLength_full h
  unfold recvString
  simp only [hlen]
  rw [if_neg (by omega), Int.toNat_natCast]
  exact Memory.length_take _ _

theorem deserialize_returns (ds : List Datum) :
    Returns Ahead (deserialize (ds.map Datum.ty)) (serialize ds)
      (toInt32 (serialize ds).length) ds := by
  intro s rest h
  cases hds : ds with
  | nil =>
    subst hds
    exact ⟨s, rfl, h⟩
  | cons d ds' =>
    rw [← hds]
    obtain ⟨s', hrcv, hrest⟩ := rcvNBytes_full (next_ahead h) s.next.1.buffer
    refine ⟨s', ?_, hrest⟩
    have hval : Koheron.deserialize 0 (ds.map Datum.ty)
        (s.next.1.buffer.write (serialize ds)) = ds := by
      apply deserialize_serialize
      rw [Memory.drop_zero]
      exact Memory.write_starts _ _
    rw [length_serialize] at hrcv ⊢
    have hret : deserialize (ds.map Datum.ty) s =
        ((toInt32 (requiredBufferSize (ds.map Datum.ty)),
          Koheron.deserialize 0 (ds.map Datum.ty) (s.next.1.buffer.write (serialize ds))), s') := by
      rw [hds, List.map_cons] at hrcv ⊢
      unfold deserialize
      simp only [hrcv]
    rw [hret, hval]

theorem recvArray_returns (ty : Scalar) (es : List ty.Val) :
    Returns Ahead (recvArray ty es.length) (images ty es) (toInt32 (images ty es).length) es := by
  intro s rest h
  obtain ⟨s', hrcv, hrest⟩ := rcvNBytes_full (next_ahead h) s.next.1.buffer
  refine ⟨s', ?_, hrest⟩
  have hval := readElems_images (Memory.write_starts s.next.1.buffer (images ty es))
  rw [length_images] at hrcv ⊢
  unfold recvArray
  simp only [hrcv, hval]

/-- The prefix of a container is its length. -/
theorem getPackLength_prefixed {s : State} {bs rest : List Byte} (hlt : bs.length < 2 ^ 32)
    (h : Ahead s (prefixed bs ++ rest)) :
    ∃ s', getPackLength s = ((bs.length : ℤ), s') ∧ Ahead s' (bs ++ rest) := by
  rw [prefixed, List.append_assoc] at h
  obtain ⟨s', hlen, hrest⟩ := getPackLength_full h
  rw [BitVec.toNat_ofNat, Nat.mod_eq_of_lt hlt] at hlen
  exact ⟨s', hlen, hrest⟩

theorem recvVector_returns (ty : Scalar) (vec es : List ty.Val)
    (hlt : (images ty es).length < 2 ^ 32) :
    Returns Ahead (recvVector ty vec) (prefixed (images ty es))
      (toInt32 (images ty es).length) es := by
  intro s rest h
  obtain ⟨s₁, hlen, h₁⟩ := getPackLength_prefixed hlt h
  have hdiv : ((images ty es).length : ℤ).tdiv ty.size = es.length := by
    rw [length_images, Nat.cast_mul]
    exact Int.mul_tdiv_cancel _ (by exact_mod_cast ty.size_pos.ne')
  obtain ⟨s', hrcv, hrest⟩ :=
    rcvNBytes_full h₁ (Memory.ofBytes (images ty (vec.takeD es.length ty.zero)))
  refine ⟨s', ?_, hrest⟩
  have hval := readElems_images
    (Memory.write_starts (Memory.ofBytes (images ty (vec.takeD es.length ty.zero))) (images ty es))
  unfold recvVector
  simp only [hlen, hdiv]
  rw [if_neg (by omega), Int.toNat_natCast]
  rw [length_images] at hrcv ⊢
  simp only [hrcv, hval]

theorem recvString_returns (str bytes : List Byte) (hlt : bytes.length < 2 ^ 32) :
    Returns Ahead (recvString str) (prefixed bytes) (toInt32 bytes.length) bytes := by
  intro s rest h
  obtain ⟨s₁, hlen, h₁⟩ := getPackLength_prefixed hlt h
  obtain ⟨s', hrcv, hrest⟩ := rcvNBytes_full h₁ (Memory.ofBytes (str.takeD bytes.length 0))
  refine ⟨s', ?_, hrest⟩
  have hval : ((Memory.ofBytes (str.takeD bytes.length 0)).write bytes).take bytes.length = bytes :=
    Memory.write_starts _ _
  unfold recvString
  simp only [hlen]
  rw [if_neg (by omega), Int.toNat_natCast]
  simp only [hrcv, hval]

/-- A complete pack: its bytes are taken, and the error code is their number as
an `int`. -/
theorem parsePack_complete {g : Group} (hg : g.Sized) :
    (0 ≤ toInt32 g.body.length →
      Parser.Decodes Ahead (session.parsePack g.pack) g.wire g.values) ∧
    (toInt32 g.body.length < 0 → Parser.Rejects Ahead (session.parsePack g.pack) g.wire) := by
  cases g with
  | scalars ds =>
    have hret := deserialize_returns ds
    exact ⟨fun h => (hret.decodes h).map _, fun h => (hret.rejects h).map _⟩
  | array ty es =>
    have hret := recvArray_returns ty es
    exact ⟨fun h => (hret.decodes h).map _, fun h => (hret.rejects h).map _⟩
  | vector ty es =>
    have hret : Returns Ahead (session.recvVector ty) (prefixed (images ty es))
        (toInt32 (images ty es).length) es :=
      fun s rest h => recvVector_returns ty _ es hg s.next.2 rest (next_ahead h)
    exact ⟨fun h => (hret.decodes h).map _, fun h => (hret.rejects h).map _⟩
  | string bytes =>
    have hret : Returns Ahead session.recvString (prefixed bytes) (toInt32 bytes.length) bytes :=
      fun s rest h => recvString_returns _ bytes hg s.next.2 rest (next_ahead h)
    exact ⟨fun h => (hret.decodes h).map _, fun h => (hret.rejects h).map _⟩

theorem readCommand_decodes {reserved : List Byte} (hres : reserved.length = headerStart)
    (driver operation : BitVec 16) :
    Parser.Decodes Ahead readCommand (commandHeader reserved driver operation)
      (driver, operation) := by
  intro s rest h
  obtain ⟨s', hrcv, hrest⟩ := rcvNBytes_full (next_ahead h) s.next.1.buffer
  rw [length_commandHeader hres] at hrcv
  refine ⟨s', ?_, hrest⟩
  have hids := headerIds_commandHeader hres
    (Memory.write_starts s.next.1.buffer (commandHeader reserved driver operation))
  unfold readCommand
  simp only [hrcv, hids]
  rfl

variable {table : Table} {driver operation : BitVec 16} {args : List Value}

/-- A command is decoded if its arguments are. -/
theorem serve_of_parse {reserved payload : List Byte} {sig : List ArgType}
    (hres : reserved.length = headerStart) (htable : table driver operation = some sig)
    (hparse : Parser.Decodes Ahead (session.parse sig) payload args) :
    Parser.Decodes Ahead (serve table) (commandHeader reserved driver operation ++ payload)
      ⟨driver, operation, args⟩ := by
  refine (readCommand_decodes hres driver operation).bind ?_
  rw [execute_of_table htable]
  exact hparse.map _

/-- If a command is decoded, so are its arguments. -/
theorem parse_of_serve {reserved : List Byte} {sig : List ArgType} {s s' : State}
    {rest : List Byte} (hres : reserved.length = headerStart)
    (htable : table driver operation = some sig)
    (hahead : Ahead s (commandHeader reserved driver operation ++ rest))
    (hserve : serve table s = (some ⟨driver, operation, args⟩, s')) :
    ∃ s₁, Ahead s₁ rest ∧ (session.parse sig s₁).1 = some args := by
  obtain ⟨s₁, hread, hrest⟩ := readCommand_decodes hres driver operation s rest hahead
  refine ⟨s₁, hrest, ?_⟩
  rw [serve, Parser.bind_some hread, execute_of_table htable] at hserve
  rcases hparse : session.parse sig s₁ with ⟨_ | args', s₂⟩
  · rw [Parser.map_none hparse] at hserve
    simp at hserve
  · rw [Parser.map_some hparse] at hserve
    simp only [Prod.mk.injEq, Option.some.injEq, Call.mk.injEq, true_and] at hserve
    rw [hserve.1]

theorem parse_decodes (hsized : ∀ v ∈ args, v.Sized)
    (hnarrow : ∀ g ∈ groups [] args, 0 ≤ toInt32 g.body.length) :
    Parser.Decodes Ahead (session.parse (args.map Value.type)) (args.flatMap Value.wire) args := by
  rw [← flatMap_wire_groups]
  refine Session.parse_decodes fun g hg => ?_
  exact (parsePack_complete (sized_groups hsized g hg)).1 (hnarrow g hg)

theorem parse_rejects (hsized : ∀ v ∈ args, v.Sized)
    (hwide : ∃ g ∈ groups [] args, toInt32 g.body.length < 0) :
    Parser.Rejects Ahead (session.parse (args.map Value.type)) (args.flatMap Value.wire) := by
  have hsizes : ∀ g ∈ groups [] args, g.Sized := sized_groups hsized
  rw [← flatMap_wire_groups]
  apply Session.parse_rejects
  · intro g hg
    rcases lt_or_ge (toInt32 g.body.length) 0 with hneg | hpos
    · exact .inr ((parsePack_complete (hsizes g hg)).2 hneg)
    · exact .inl ((parsePack_complete (hsizes g hg)).1 hpos)
  · obtain ⟨g, hg, hneg⟩ := hwide
    exact ⟨g, hg, (parsePack_complete (hsizes g hg)).2 hneg⟩

theorem serve_decodes {reserved : List Byte} (hres : reserved.length = headerStart)
    (htable : table driver operation = some (args.map Value.type))
    (hsized : ∀ v ∈ args, v.Sized)
    (hnarrow : ∀ g ∈ groups [] args, 0 ≤ toInt32 g.body.length) :
    Parser.Decodes Ahead (serve table)
      (commandHeader reserved driver operation ++ args.flatMap Value.wire)
      ⟨driver, operation, args⟩ :=
  serve_of_parse hres htable (parse_decodes hsized hnarrow)

theorem serve_rejects {reserved : List Byte} (hres : reserved.length = headerStart)
    (htable : table driver operation = some (args.map Value.type))
    (hsized : ∀ v ∈ args, v.Sized)
    (hwide : ∃ g ∈ groups [] args, toInt32 g.body.length < 0) :
    Parser.Rejects Ahead (serve table)
      (commandHeader reserved driver operation ++ args.flatMap Value.wire) := by
  refine (readCommand_decodes hres driver operation).bind_rejects ?_
  rw [execute_of_table htable]
  exact (parse_rejects hsized hwide).map _

end Tcp

end Koheron
