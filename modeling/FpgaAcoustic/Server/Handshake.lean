-- SUMMARY: WebSocket::authenticate on upgrade requests, and the requests that are answered with nothing lost, however their bytes arrive.
import FpgaAcoustic.Bytes.Base64
import FpgaAcoustic.Bytes.Search
import FpgaAcoustic.Server.Emission

/-!
# The opening handshake

The request is taken from one call of `read`, and what this call returns is the
packet up to its first zero byte. The frames that follow are read from the
socket, so a byte behind the blank line that was read with the request is gone,
and a request that comes in two reads is refused.

The answer depends on `SHA1` only through the digest, which is a parameter.
-/

namespace Koheron.WebSocket

open Bytes

/-! ## base64_encode -/

def base64Chars : List Byte :=
  ascii ("ABCDEFGHIJKLMNOPQRSTUVWXYZ" ++ "abcdefghijklmnopqrstuvwxyz" ++ "0123456789+/")

/-- `char_array_4`. -/
def charArray4 (a b c : Byte) : List Byte :=
  [(a &&& 0xfc) >>> 2, ((a &&& 0x03) <<< 4) + ((b &&& 0xf0) >>> 4),
    ((b &&& 0x0f) <<< 2) + ((c &&& 0xc0) >>> 6), c &&& 0x3f]

def chars (values : List Byte) : List Byte := values.map fun v => base64Chars.getD v.toNat 0

/-- The loop over the bytes, with the ones of `char_array_3` that are set. -/
def encodeLoop : List Byte → List Byte → List Byte → List Byte × List Byte
  | [], charArray3, ret => (charArray3, ret)
  | d :: bytes, [a, b], ret => encodeLoop bytes [] (ret ++ chars (charArray4 a b d))
  | d :: bytes, charArray3, ret => encodeLoop bytes (charArray3 ++ [d]) ret

/-- The bytes that are left when the loop is over. -/
def encodeTail (charArray3 ret : List Byte) : List Byte :=
  let i := charArray3.length
  if i = 0 then ret
  else
    ret ++ (chars (charArray4 (charArray3.getD 0 0) (charArray3.getD 1 0)
      (charArray3.getD 2 0))).take (i + 1) ++ List.replicate (3 - i) 0x3d

def base64Encode (bytes : List Byte) : List Byte :=
  let (charArray3, ret) := encodeLoop bytes [] []
  encodeTail charArray3 ret

/-- The masks and shifts are those of the four digits. -/
theorem toNat_charArray4 (a b c : Byte) : (charArray4 a b c).map BitVec.toNat = Base64.sextets a b c := by
  have hmasks : ∀ v : Byte, ((v &&& 0xfc) >>> 2).toNat = v.toNat / 4 ∧
      ((v &&& 0x03) <<< 4).toNat = v.toNat % 4 * 16 ∧ ((v &&& 0xf0) >>> 4).toNat = v.toNat / 16 ∧
      ((v &&& 0x0f) <<< 2).toNat = v.toNat % 16 * 4 ∧ ((v &&& 0xc0) >>> 6).toNat = v.toNat / 64 ∧
      (v &&& 0x3f).toNat = v.toNat % 64 := by decide
  obtain ⟨hfirst, hsecond, -⟩ := hmasks a
  obtain ⟨-, -, hthird, hfourth, -⟩ := hmasks b
  obtain ⟨-, -, -, -, hfifth, hsixth⟩ := hmasks c
  have ha := a.isLt
  have hb := b.isLt
  have hc := c.isLt
  simp only [charArray4, List.map_cons, List.map_nil, BitVec.toNat_add, hfirst, hsecond, hthird,
    hfourth, hfifth, hsixth, Base64.sextets, List.cons.injEq, and_true]
  refine ⟨?_, ?_, ?_, ?_⟩ <;> omega

theorem chars_charArray4 (a b c : Byte) :
    chars (charArray4 a b c) = Base64.digits (Base64.sextets a b c) := by
  rw [← toNat_charArray4, Base64.digits, List.map_map]
  rfl

/-- From a group on, the loop and what follows it append the encoding. -/
theorem encodeLoop_eq (bytes ret : List Byte) :
    encodeTail (encodeLoop bytes [] ret).1 (encodeLoop bytes [] ret).2 =
      ret ++ Base64.encode bytes := by
  induction bytes using Base64.encode.induct generalizing ret with
  | case1 => exact (List.append_nil ret).symm
  | case2 a =>
    have htail : encodeTail (encodeLoop [a] [] ret).1 (encodeLoop [a] [] ret).2 =
        ret ++ (chars (charArray4 a 0 0)).take 2 ++ [Base64.pad, Base64.pad] := rfl
    rw [htail, chars_charArray4, Base64.encode, List.append_assoc, Base64.digits, Base64.digits,
      List.map_take]
  | case3 a b =>
    have htail : encodeTail (encodeLoop [a, b] [] ret).1 (encodeLoop [a, b] [] ret).2 =
        ret ++ (chars (charArray4 a b 0)).take 3 ++ [Base64.pad] := rfl
    rw [htail, chars_charArray4, Base64.encode, List.append_assoc, Base64.digits, Base64.digits,
      List.map_take]
  | case4 a b c bytes ih =>
    have hgroup : encodeLoop (a :: b :: c :: bytes) [] ret =
        encodeLoop bytes [] (ret ++ chars (charArray4 a b c)) := rfl
    rw [hgroup, ih, chars_charArray4, Base64.encode, List.append_assoc]

theorem base64Encode_eq (bytes : List Byte) : base64Encode bytes = Base64.encode bytes :=
  encodeLoop_eq bytes []

/-! ## authenticate -/

def wsKeyIdentifier : List Byte := ascii "Sec-WebSocket-Key: "

def wsProtocolIdentifier : List Byte := ascii "Sec-WebSocket-Protocol: "

def wsMagic : List Byte := ascii "258EAFA5-E914-47DA-95CA-C5AB0DC85B11"

def wsKeyLen : ℕ := 24

def crlf : List Byte := [0x0d, 0x0a]

/-- `std::string(read_str)`; a string that runs past the array has no value. -/
def packetString (m : Memory) : Option (List Byte) :=
  if 0 ∈ m.take websockReadStrLen then some ((m.take websockReadStrLen).takeWhile (· != 0)) else none

/-- What is returned, `http_packet`, and the session then. -/
def readHttpPacket (s : State) : Option (ℤ × List Byte × State) :=
  let s := s.resetReadBuff
  match s.sock.read websockReadStrLen with
  | (none, sock) => some (-1, [], { s with sock })
  | (some bytes, sock) =>
    let s := { s with sock, readStr := s.readStr.writeAt 0 bytes }
    if bytes.length = koheronReadStrLen then some (-1, [], s)
    else if bytes.length = 0 then some (-1, [], { s with connectionClosed := true })
    else do
      let httpPacket ← packetString s.readStr
      if find (crlf ++ crlf) httpPacket = none then pure (-1, httpPacket, s)
      else pure (bytes.length, httpPacket, s)

/-- The text that `authenticate` sends. -/
def reply (finalStr : List Byte) (isProtocol : Bool) : List Byte :=
  ascii "HTTP/1.1 101 Switching Protocols" ++ crlf ++ (ascii "Upgrade: websocket" ++ crlf) ++
    (ascii "Connection: Upgrade" ++ crlf) ++ (ascii "Sec-WebSocket-Accept: " ++ finalStr ++ crlf) ++
    (if isProtocol then ascii "Sec-WebSocket-Protocol: chat" ++ crlf else []) ++ crlf

/-- What is returned, the bytes on the wire, and the session then. `writes` is
what `write` returns each time. -/
def authenticate (sha1 : List Byte → Fin 20 → Byte) (writes : ℕ → ℤ) (s : State) :
    Option (ℤ × List Byte × State) := do
  let (nbBytesRcvd, httpPacket, s) ← readHttpPacket s
  if nbBytesRcvd < 0 then pure (-1, [], s)
  else
    let isProtocol := (find wsProtocolIdentifier httpPacket).isSome
    match find wsKeyIdentifier httpPacket with
    | none => pure (-1, [], s)
    | some pos =>
      let key := (httpPacket.drop (pos + wsKeyIdentifier.length)).take wsKeyLen
      let finalStr := base64Encode (List.ofFn (sha1 (key ++ wsMagic)))
      let request := reply finalStr isProtocol
      let (ret, wire, sender) :=
        sendRequest writes request.length ⟨s.connectionClosed, Memory.ofBytes request⟩
      pure (ret, wire, { s with connectionClosed := sender.connectionClosed })

/-! ## Upgrade requests -/

/-- A line without its end. -/
structure Line where
  bytes : List Byte
  ne_nil : bytes ≠ []
  plain : ∀ b ∈ bytes, b ≠ 0 ∧ b ≠ 0x0d ∧ b ≠ 0x0a

/-- The small letter of a capital one. -/
def lower (b : Byte) : Byte := if 0x41 ≤ b ∧ b ≤ 0x5a then b + 0x20 else b

/-- A `Sec-WebSocket-Key` header. Its name may be in any case, and there may be
blanks around its value. -/
structure KeyHeader where
  name : List Byte
  before : List Byte
  key : List Byte
  behind : List Byte
  lower_name : name.map lower = ascii "sec-websocket-key"
  blank : ∀ b ∈ before ++ behind, b = 0x20 ∨ b = 0x09
  length_key : key.length = 24
  digit : ∀ b ∈ key, b ∈ Base64.alphabet ∨ b = Base64.pad

def KeyHeader.bytes (h : KeyHeader) : List Byte := h.name ++ 0x3a :: h.before ++ h.key ++ h.behind

/-- A key header is a line. -/
def KeyHeader.line (h : KeyHeader) : Line where
  bytes := h.bytes
  ne_nil := by simp [KeyHeader.bytes]
  plain b hb := by
    have hplain : ∀ c : Byte, c = 0 ∨ c = 0x0d ∨ c = 0x0a →
        lower c ∉ ascii "sec-websocket-key" ∧ c ≠ 0x3a ∧ c ≠ 0x20 ∧ c ≠ 0x09 ∧
          c ∉ Base64.alphabet ∧ c ≠ Base64.pad := by
      rintro c (rfl | rfl | rfl) <;> decide
    by_contra hnot
    rw [not_and_or, not_and_or, not_not, not_not, not_not] at hnot
    obtain ⟨hname, hcolon, hspace, htab, halphabet, hpad⟩ := hplain b hnot
    have hblank := h.blank b
    simp only [KeyHeader.bytes, List.mem_append, List.mem_cons] at hb hblank
    rcases hb with ((hb | rfl | hb) | hb) | hb
    · exact hname (h.lower_name ▸ List.mem_map_of_mem hb)
    · exact hcolon rfl
    · exact (hblank (.inl hb)).elim hspace htab
    · exact (h.digit b hb).elim halphabet hpad
    · exact (hblank (.inr hb)).elim hspace htab

structure UpgradeRequest where
  requestLine : Line
  headers : List Line
  keyHeader : KeyHeader
  moreHeaders : List Line

namespace UpgradeRequest

variable (r : UpgradeRequest)

def key : List Byte := r.keyHeader.key

def lines : List Line := r.requestLine :: r.headers ++ r.keyHeader.line :: r.moreHeaders

/-- The lines with their ends, and the blank line. -/
def text : List Byte := r.lines.flatMap (fun line => line.bytes ++ crlf) ++ crlf

/-- `r` comes with the key right behind what `authenticate` searches for. -/
def KeyFirst : Prop :=
  ∃ front rest, r.text = front ++ (wsKeyIdentifier ++ (r.key ++ rest)) ∧
    find wsKeyIdentifier r.text = some front.length

end UpgradeRequest

/-! ## Specification -/

/-- The session of a new connection. -/
def start (sock : Socket) (header : Header) (stale : ℕ → Memory × Memory) : State :=
  ⟨sock, fun _ => 0, 0, header, false, stale⟩

def acceptValue (sha1 : List Byte → Fin 20 → Byte) (key : List Byte) : List Byte :=
  Base64.encode (List.ofFn (sha1 (key ++ wsMagic)))

/-- However the writes split the answer up, it has the accept value of the key,
and the bytes behind the request are still to come. -/
def Handshakes (sha1 : List Byte → Fin 20 → Byte) (r : UpgradeRequest) (following : List Byte)
    (s : State) : Prop :=
  ∀ writes, (∀ i, 0 < writes i) → ∃ ret isProtocol s',
    authenticate sha1 writes s = some (ret, reply (acceptValue sha1 r.key) isProtocol, s') ∧
      0 ≤ ret ∧ Idle s' following

/-- The first read takes exactly the request. -/
def ReadAtOnce (r : UpgradeRequest) (sock : Socket) : Prop :=
  (sock.read websockReadStrLen).1 = some r.text

instance (r : UpgradeRequest) (sock : Socket) : Decidable (ReadAtOnce r sock) :=
  inferInstanceAs (Decidable (_ = _))

/-! ## The request -/

section Request

variable (r : UpgradeRequest)

/-- A request has no zero bytes. -/
theorem ne_zero_of_mem_text {b : Byte} (h : b ∈ r.text) : b ≠ 0 := by
  have hcrlf : ∀ c ∈ crlf, c ≠ 0 := by decide
  rcases List.mem_append.mp h with h | h
  · obtain ⟨line, -, h⟩ := List.mem_flatMap.mp h
    rcases List.mem_append.mp h with h | h
    · exact (line.plain b h).1
    · exact hcrlf b h
  · exact hcrlf b h

/-- It ends with the blank line. -/
theorem text_eq : ∃ front, r.text = front ++ (crlf ++ crlf) := by
  obtain ⟨lines, last, hlines⟩ : ∃ lines last, r.lines = lines ++ [last] :=
    ⟨_, _, (List.dropLast_append_getLast (List.cons_ne_nil _ _)).symm⟩
  refine ⟨lines.flatMap (fun line => line.bytes ++ crlf) ++ last.bytes, ?_⟩
  rw [UpgradeRequest.text, hlines, List.flatMap_append, List.flatMap_singleton]
  simp only [List.append_assoc]

/-- A blank line behind a line end begins with this end or behind it. -/
theorem crlf_append_cases {text after rest : List Byte}
    (h : crlf ++ text = after ++ (crlf ++ crlf ++ rest)) :
    text = crlf ++ rest ∨ ∃ after', text = after' ++ (crlf ++ crlf ++ rest) := by
  rcases after with _ | ⟨b, _ | ⟨c, after⟩⟩
  · exact .inl (List.append_cancel_left (h.trans (List.append_assoc crlf crlf rest)))
  · have hlf : (0x0a : Byte) = 0x0d := (List.cons.inj (List.cons.inj h).2).1
    exact absurd hlf (by decide)
  · exact .inr ⟨after, (List.cons.inj (List.cons.inj h).2).2⟩

/-- Lines begin with a line end only if there are none. -/
theorem rest_eq_nil_of_crlf {lines : List Line} {rest : List Byte}
    (h : lines.flatMap (fun line => line.bytes ++ crlf) ++ crlf = crlf ++ rest) : rest = [] := by
  cases lines with
  | nil =>
    exact (List.append_cancel_left (h.symm.trans (List.append_nil crlf).symm))
  | cons line lines =>
    obtain ⟨b, bytes, hbytes⟩ := List.exists_cons_of_ne_nil line.ne_nil
    have hb : b = 0x0d := by
      rw [List.flatMap_cons, hbytes] at h
      exact (List.cons.inj h).1
    exact absurd hb (line.plain b (hbytes ▸ List.mem_cons_self)).2.1

/-- Nothing stands behind a blank line: the lines before it are not empty, and
their bytes are no line ends. -/
theorem rest_eq_nil {lines : List Line} {front rest : List Byte}
    (h : lines.flatMap (fun line => line.bytes ++ crlf) ++ crlf = front ++ (crlf ++ crlf ++ rest)) :
    rest = [] := by
  induction lines generalizing front with
  | nil =>
    have hlen := congrArg List.length h
    simp only [List.flatMap_nil, List.nil_append, List.length_append, crlf, List.length_cons,
      List.length_nil] at hlen
    exact List.length_eq_zero_iff.mp (by omega)
  | cons line lines ih =>
    -- the blank line may begin with the end of `line`, but not within it
    have hbehind : ∀ after, crlf ++ (lines.flatMap (fun line => line.bytes ++ crlf) ++ crlf) =
        after ++ (crlf ++ crlf ++ rest) → rest = [] := by
      intro after hafter
      rcases crlf_append_cases hafter with hend | ⟨after', hend⟩
      · exact rest_eq_nil_of_crlf hend
      · exact ih hend
    rw [List.flatMap_cons, List.append_assoc, List.append_assoc] at h
    rcases List.append_eq_append_iff.mp h with ⟨after, -, hafter⟩ | ⟨_ | ⟨b, after⟩, hline, hafter⟩
    · exact hbehind after hafter
    · exact hbehind [] hafter.symm
    · have hb : b = 0x0d := (List.cons.inj hafter).1.symm
      have hmem : b ∈ line.bytes := hline ▸ List.mem_append_right front List.mem_cons_self
      exact absurd hb (line.plain b hmem).2.1

/-- So the part of a request that stops before its end has no blank line. -/
theorem find_eq_none {bytes rest : List Byte} (h : r.text = bytes ++ rest) (hrest : rest ≠ []) :
    find (crlf ++ crlf) bytes = none := by
  by_contra hfind
  obtain ⟨n, hn⟩ := Option.ne_none_iff_exists'.mp hfind
  obtain ⟨before, after, hbytes, -⟩ := exists_of_find hn
  have htext : r.lines.flatMap (fun line => line.bytes ++ crlf) ++ crlf =
      before ++ (crlf ++ crlf ++ (after ++ rest)) := by
    rw [← UpgradeRequest.text, h, hbytes]
    simp only [List.append_assoc]
  exact hrest (List.append_eq_nil_iff.mp (rest_eq_nil htext)).2

/-- The packet is what was read, as there are zeros behind it. -/
theorem packetString_writeAt {bytes : List Byte} (hzero : ∀ b ∈ bytes, b ≠ 0)
    (h : bytes.length < websockReadStrLen) :
    packetString (Memory.writeAt (fun _ => 0) 0 bytes) = some bytes := by
  obtain ⟨k, hk⟩ := Nat.exists_eq_add_of_lt h
  have hmemory : Memory.writeAt (fun _ => 0) 0 bytes = Memory.ofBytes bytes := by
    funext i
    simp [Memory.writeAt, Memory.ofBytes]
  obtain ⟨zeros, hzeros⟩ : ∃ zeros, (Memory.ofBytes []).take (1 + k) = 0 :: zeros := by
    rw [Memory.take_add]
    exact ⟨_, rfl⟩
  have htake : (Memory.ofBytes bytes).take websockReadStrLen = bytes ++ 0 :: zeros := by
    rw [hk, Nat.add_assoc, Nat.add_comm k 1, Memory.take_add, Memory.ofBytes_starts,
      Memory.drop_ofBytes, List.drop_length, hzeros]
  rw [packetString, hmemory, htake, if_pos (List.mem_append_right _ List.mem_cons_self),
    List.takeWhile_append_of_pos fun b hb => bne_iff_ne.mpr (hzero b hb)]
  simp

end Request

/-! ## The answer -/

section Answer

variable {r : UpgradeRequest} {sock sock' : Socket} (header : Header)
  (stale : ℕ → Memory × Memory)

theorem resetReadBuff_start : (start sock header stale).resetReadBuff = start sock header stale := by
  simp [State.resetReadBuff, start]

/-- The request, read at once. -/
theorem readHttpPacket_text (hfits : r.text.length < websockReadStrLen)
    (hread : sock.read websockReadStrLen = (some r.text, sock'))
    (hlen : r.text.length ≠ koheronReadStrLen) :
    ∃ s', readHttpPacket (start sock header stale) = some ((r.text.length : ℤ), r.text, s') ∧
      s'.sock = sock' ∧ s'.connectionClosed = false := by
  obtain ⟨front, htext⟩ := text_eq r
  have hpos : r.text.length ≠ 0 := by
    rw [htext]
    simp [crlf]
  have hfind : find (crlf ++ crlf) r.text ≠ none := by
    rw [htext, ← List.append_nil (crlf ++ crlf)]
    exact find_ne_none front []
  refine ⟨{ start sock header stale with
    sock := sock', readStr := Memory.writeAt (fun _ => 0) 0 r.text }, ?_, rfl, rfl⟩
  rw [readHttpPacket, resetReadBuff_start]
  dsimp only [start]
  rw [hread]
  dsimp only
  rw [if_neg hlen, if_neg hpos,
    packetString_writeAt (fun _ => ne_zero_of_mem_text r) hfits, Option.bind_eq_bind, Option.bind_some,
    if_neg hfind]
  rfl

theorem readHttpPacket_sock {s s' : State} {nbBytesRcvd : ℤ} {httpPacket : List Byte}
    (h : readHttpPacket s = some (nbBytesRcvd, httpPacket, s')) :
    s'.sock = (s.sock.read websockReadStrLen).2 := by
  have hsock : s.resetReadBuff.sock = s.sock := rfl
  simp only [readHttpPacket, hsock] at h
  rcases hread : s.sock.read websockReadStrLen with ⟨_ | bytes, sock⟩
  · simp only [hread, Option.some.injEq, Prod.mk.injEq] at h
    rw [← h.2.2]
  · simp only [hread] at h
    split_ifs at h with hfull hclosed
    · simp only [Option.some.injEq, Prod.mk.injEq] at h
      rw [← h.2.2]
    · simp only [Option.some.injEq, Prod.mk.injEq] at h
      rw [← h.2.2]
    · obtain ⟨packet, -, h⟩ := Option.bind_eq_some_iff.mp h
      split_ifs at h
      · simp only [Option.pure_def, Option.some.injEq, Prod.mk.injEq] at h
        rw [← h.2.2]
      · simp only [Option.pure_def, Option.some.injEq, Prod.mk.injEq] at h
        rw [← h.2.2]

/-- `authenticate` reads once, and what it has read is gone. -/
theorem authenticate_sock {sha1 : List Byte → Fin 20 → Byte} {writes : ℕ → ℤ} {s s' : State}
    {ret : ℤ} {wire : List Byte} (h : authenticate sha1 writes s = some (ret, wire, s')) :
    s'.sock = (s.sock.read websockReadStrLen).2 := by
  obtain ⟨⟨nbBytesRcvd, httpPacket, s₁⟩, hpacket, h⟩ := Option.bind_eq_some_iff.mp h
  rw [← readHttpPacket_sock hpacket]
  dsimp only at h
  split_ifs at h
  · simp only [Option.pure_def, Option.some.injEq, Prod.mk.injEq] at h
    rw [← h.2.2]
  · cases hfind : find wsKeyIdentifier httpPacket with
    | none =>
      simp only [hfind, Option.pure_def, Option.some.injEq, Prod.mk.injEq] at h
      rw [← h.2.2]
    | some pos =>
      simp only [hfind, Option.pure_def, Option.some.injEq, Prod.mk.injEq] at h
      rw [← h.2.2]

/-- The request, read at once, is answered with the 24 bytes behind what is
searched for. -/
theorem authenticate_text (hfits : r.text.length < websockReadStrLen)
    (hread : sock.read websockReadStrLen = (some r.text, sock'))
    (hlen : r.text.length ≠ koheronReadStrLen) (sha1 : List Byte → Fin 20 → Byte)
    {writes : ℕ → ℤ} (hpos : ∀ i, 0 < writes i) {pos : ℕ}
    (hfind : find wsKeyIdentifier r.text = some pos) :
    ∃ ret isProtocol s', authenticate sha1 writes (start sock header stale) =
        some (ret, reply (acceptValue sha1
          ((r.text.drop (pos + wsKeyIdentifier.length)).take wsKeyLen)) isProtocol, s') ∧
      0 ≤ ret ∧ s'.connectionClosed = false := by
  obtain ⟨s₁, hpacket, -, hopen⟩ :=
    readHttpPacket_text header stale hfits hread hlen
  set request := reply (acceptValue sha1
    ((r.text.drop (pos + wsKeyIdentifier.length)).take wsKeyLen))
    (find wsProtocolIdentifier r.text).isSome with hrequest
  obtain ⟨ret, hret, hsend⟩ := sendRequest_wire (s := ⟨s₁.connectionClosed, Memory.ofBytes request⟩)
    hpos hopen (Memory.ofBytes_starts request)
  refine ⟨ret, (find wsProtocolIdentifier r.text).isSome, s₁, ?_, hret, hopen⟩
  have hlength : ¬ (r.text.length : ℤ) < 0 := by omega
  rw [authenticate, hpacket]
  dsimp only [Option.bind_eq_bind, Option.bind_some]
  rw [if_neg hlength, hfind]
  dsimp only
  rw [base64Encode_eq, ← acceptValue, ← hrequest, hsend]
  rfl

/-- Without what is searched for, the request is not answered. -/
theorem authenticate_none (hfits : r.text.length < websockReadStrLen)
    (hread : sock.read websockReadStrLen = (some r.text, sock'))
    (hlen : r.text.length ≠ koheronReadStrLen) (sha1 : List Byte → Fin 20 → Byte)
    (writes : ℕ → ℤ) (hfind : find wsKeyIdentifier r.text = none) :
    ∃ s', authenticate sha1 writes (start sock header stale) = some (-1, [], s') := by
  obtain ⟨s₁, hpacket, -, -⟩ :=
    readHttpPacket_text header stale hfits hread hlen
  have hlength : ¬ (r.text.length : ℤ) < 0 := by omega
  refine ⟨s₁, ?_⟩
  rw [authenticate, hpacket]
  dsimp only [Option.bind_eq_bind, Option.bind_some]
  rw [if_neg hlength, hfind]
  rfl

/-- A read of as many bytes as the other buffer has is taken for an overflow. -/
theorem authenticate_full {bytes : List Byte}
    (hread : sock.read websockReadStrLen = (some bytes, sock'))
    (hlen : bytes.length = koheronReadStrLen) (sha1 : List Byte → Fin 20 → Byte)
    (writes : ℕ → ℤ) :
    ∃ s', authenticate sha1 writes (start sock header stale) = some (-1, [], s') := by
  have hpacket : ∃ s₁, readHttpPacket (start sock header stale) = some (-1, [], s₁) := by
    rw [readHttpPacket, resetReadBuff_start]
    dsimp only [start]
    rw [hread]
    dsimp only
    rw [if_pos hlen]
    exact ⟨_, rfl⟩
  obtain ⟨s₁, hpacket⟩ := hpacket
  refine ⟨s₁, ?_⟩
  rw [authenticate, hpacket]
  rfl

/-- A read that stops before the end of the request is the end of the handshake. -/
theorem authenticate_short (hfits : r.text.length < websockReadStrLen) {bytes rest : List Byte}
    (hread : sock.read websockReadStrLen = (some bytes, sock'))
    (htext : r.text = bytes ++ rest) (hrest : rest ≠ []) (sha1 : List Byte → Fin 20 → Byte)
    (writes : ℕ → ℤ) :
    ∃ s', authenticate sha1 writes (start sock header stale) = some (-1, [], s') := by
  have hlen : bytes.length < websockReadStrLen :=
    lt_of_le_of_lt (by rw [htext, List.length_append]; omega) hfits
  have hzero : ∀ b ∈ bytes, b ≠ 0 :=
    fun b hb => ne_zero_of_mem_text r (htext ▸ List.mem_append_left rest hb)
  have hpacket : ∃ httpPacket s₁,
      readHttpPacket (start sock header stale) = some (-1, httpPacket, s₁) := by
    rw [readHttpPacket, resetReadBuff_start]
    dsimp only [start]
    rw [hread]
    dsimp only
    split_ifs with hfull hclosed
    · exact ⟨_, _, rfl⟩
    · exact ⟨_, _, rfl⟩
    · rw [packetString_writeAt hzero hlen, Option.bind_eq_bind, Option.bind_some,
        if_pos (find_eq_none r htext hrest)]
      exact ⟨_, _, rfl⟩
  obtain ⟨httpPacket, s₁, hpacket⟩ := hpacket
  refine ⟨s₁, ?_⟩
  rw [authenticate, hpacket]
  rfl

/-- The accept value can be told from the answer. -/
theorem reply_inj {v v' : List Byte} {isProtocol isProtocol' : Bool} (hlen : v.length = v'.length)
    (h : reply v isProtocol = reply v' isProtocol') : v = v' := by
  unfold reply at h
  simp only [List.append_assoc] at h
  have hafter := List.append_cancel_left (List.append_cancel_left (List.append_cancel_left
    (List.append_cancel_left (List.append_cancel_left (List.append_cancel_left
      (List.append_cancel_left h))))))
  exact List.append_inj_left hafter hlen

/-- A digest that tells one message from all others. -/
def marks (message m : List Byte) (_ : Fin 20) : Byte := if m = message then 1 else 0

theorem acceptValue_marks {key key' : List Byte}
    (h : acceptValue (marks (key ++ wsMagic)) key' = acceptValue (marks (key ++ wsMagic)) key) :
    key' = key := by
  by_contra hne
  have hmessage : key' ++ wsMagic ≠ key ++ wsMagic := fun heq => hne (List.append_cancel_right heq)
  have hzeros : marks (key ++ wsMagic) (key' ++ wsMagic) = fun _ => 0 :=
    funext fun _ => if_neg hmessage
  have hones : marks (key ++ wsMagic) (key ++ wsMagic) = fun _ => 1 := funext fun _ => if_pos rfl
  rw [acceptValue, acceptValue, hzeros, hones] at h
  exact absurd h (by decide)

end Answer

/-! ## Handshakes -/

section Handshakes

variable {sha1 : List Byte → Fin 20 → Byte} {r : UpgradeRequest} {following : List Byte}
  {sock : Socket} {header : Header} {stale : ℕ → Memory × Memory}

/-- What is still to come is what the first read has left, so it has taken the
request. -/
theorem Handshakes.readAtOnce (h : Handshakes sha1 r following (start sock header stale))
    (hflat : sock.flat = r.text ++ following) (hclean : sock.Clean) : ReadAtOnce r sock := by
  obtain ⟨bytes, sock', hread, hsplit, -⟩ := Socket.read_flat hclean websockReadStrLen
  obtain ⟨ret, isProtocol, s', hauth, -, hidle⟩ := h (fun _ => 1) (fun _ => Int.one_pos)
  have hsock' : s'.sock = sock' := by
    rw [authenticate_sock hauth]
    exact congrArg Prod.snd hread
  rw [hflat, ← hsock', hidle.flat] at hsplit
  rw [ReadAtOnce, hread, ← List.append_cancel_right hsplit]

/-- A request as long as the other buffer is not answered. -/
theorem Handshakes.length_ne (h : Handshakes sha1 r following (start sock header stale))
    {sock' : Socket} (hread : sock.read websockReadStrLen = (some r.text, sock')) :
    r.text.length ≠ koheronReadStrLen := by
  intro hlen
  obtain ⟨ret, isProtocol, s', hauth, hret, -⟩ := h (fun _ => 1) (fun _ => Int.one_pos)
  obtain ⟨s'', hfull⟩ := authenticate_full header stale hread hlen sha1 (fun _ => 1)
  rw [hfull, Option.some.injEq, Prod.mk.injEq] at hauth
  omega

/-- With a digest that marks the key, it has been found where it is searched for. -/
theorem Handshakes.keyFirst
    (h : Handshakes (marks (r.key ++ wsMagic)) r following (start sock header stale))
    (hfits : r.text.length < websockReadStrLen) {sock' : Socket}
    (hread : sock.read websockReadStrLen = (some r.text, sock'))
    (hlen : r.text.length ≠ koheronReadStrLen) : r.KeyFirst := by
  obtain ⟨ret, isProtocol, s', hauth, hret, -⟩ := h (fun _ => 1) (fun _ => Int.one_pos)
  cases hfind : find wsKeyIdentifier r.text with
  | none =>
    obtain ⟨s'', hnone⟩ := authenticate_none header stale hfits hread hlen
      (marks (r.key ++ wsMagic)) (fun _ => 1) hfind
    rw [hnone, Option.some.injEq, Prod.mk.injEq] at hauth
    omega
  | some pos =>
    obtain ⟨ret', isProtocol', s'', hsome, -, -⟩ := authenticate_text header stale hfits hread hlen
      (marks (r.key ++ wsMagic)) (fun _ => Int.one_pos) hfind
    rw [hsome, Option.some.injEq, Prod.mk.injEq, Prod.mk.injEq] at hauth
    have hkey := acceptValue_marks (reply_inj (by
      rw [acceptValue, acceptValue, Base64.length_encode, Base64.length_encode, List.length_ofFn,
        List.length_ofFn]) hauth.2.1)
    obtain ⟨front, after, htext, hfront⟩ := exists_of_find hfind
    have hdrop : r.text.drop (pos + wsKeyIdentifier.length) = after := by
      rw [htext, ← List.append_assoc, ← hfront, ← List.length_append, List.drop_left]
    rw [hdrop] at hkey
    refine ⟨front, after.drop wsKeyLen, ?_, by rw [hfront]; exact hfind⟩
    rw [← hkey, List.take_append_drop]
    exact htext

/-- Behind what is searched for, the key is taken whole. -/
theorem UpgradeRequest.KeyFirst.find_key (h : r.KeyFirst) :
    ∃ pos, find wsKeyIdentifier r.text = some pos ∧
      (r.text.drop (pos + wsKeyIdentifier.length)).take wsKeyLen = r.key := by
  obtain ⟨front, rest, htext, hfind⟩ := h
  refine ⟨front.length, hfind, ?_⟩
  rw [htext, ← List.append_assoc, ← List.length_append, List.drop_left,
    show wsKeyLen = r.key.length from r.keyHeader.length_key.symm, List.take_left]

/-- A request is answered whatever the digest is, and nothing is lost behind it,
just when it is read at once, is not as long as the other buffer, and has its key
where it is searched for. -/
theorem handshakes_iff (r : UpgradeRequest) (following : List Byte) {sock : Socket}
    (hfits : r.text.length < websockReadStrLen) (hflat : sock.flat = r.text ++ following)
    (hclean : sock.Clean) (header : Header) (stale : ℕ → Memory × Memory) :
    (∀ sha1, Handshakes sha1 r following (start sock header stale)) ↔
      ReadAtOnce r sock ∧ r.text.length ≠ koheronReadStrLen ∧ r.KeyFirst := by
  obtain ⟨bytes, sock', hread, hsplit, hclean'⟩ := Socket.read_flat hclean websockReadStrLen
  constructor
  · intro h
    have hmarks := h (marks (r.key ++ wsMagic))
    have honce := hmarks.readAtOnce hflat hclean
    obtain rfl : bytes = r.text := by
      rw [ReadAtOnce, hread] at honce
      exact Option.some.inj honce
    have hlen := hmarks.length_ne hread
    exact ⟨honce, hlen, hmarks.keyFirst hfits hread hlen⟩
  · rintro ⟨honce, hlen, hfirst⟩ sha1 writes hpos
    obtain rfl : bytes = r.text := by
      rw [ReadAtOnce, hread] at honce
      exact Option.some.inj honce
    obtain ⟨pos, hfind, hkey⟩ := hfirst.find_key
    obtain ⟨ret, isProtocol, s', hauth, hret, hopen⟩ :=
      authenticate_text header stale hfits hread hlen sha1 hpos hfind
    rw [hkey] at hauth
    have hsock' : s'.sock = sock' := by
      rw [authenticate_sock hauth]
      exact congrArg Prod.snd hread
    refine ⟨ret, isProtocol, s', hauth, hret, ?_, by rwa [hsock'], hopen⟩
    rw [hsock']
    rw [hflat] at hsplit
    exact (List.append_cancel_left hsplit).symm

end Handshakes

/-! ## A request -/

def sample : UpgradeRequest where
  requestLine := ⟨ascii "GET / HTTP/1.1", by decide, by decide⟩
  headers := [⟨ascii "Upgrade: websocket", by decide, by decide⟩]
  keyHeader :=
    ⟨ascii "Sec-WebSocket-Key", [0x20], ascii "dGhlIHNhbXBsZSBub25jZQ==", [], by decide, by decide,
      by decide, by decide⟩
  moreHeaders := []

/-- The request comes alone, and then the first byte of a frame. -/
def alone : Socket := [.data 0x47 sample.text.tail, .data 0x82 []]

def noHeader : Header := ⟨0, 0, 0, false, false, 0⟩

def noStale (_ : ℕ) : Memory × Memory := (fun _ => 0, fun _ => 0)

/-- What `SHA1` returns for the key of `sample`. -/
def sampleDigest (_ : List Byte) : Fin 20 → Byte :=
  fun i => [0xb3, 0x7a, 0x4f, 0x2c, 0xc0, 0x62, 0x4f, 0x16, 0x90, 0xf6, 0x46, 0x06, 0xcf, 0x38,
    0x59, 0x45, 0xb2, 0xbe, 0xc4, 0xea].getD i 0

theorem alone_handshakes :
    acceptValue sampleDigest sample.key = ascii "s3pPLMBiTxaQ9kYGzzhZRbK+xOo=" ∧
      Handshakes sampleDigest sample [0x82] (start alone noHeader noStale) := by
  have hkey : sample.KeyFirst :=
    ⟨ascii "GET / HTTP/1.1" ++ crlf ++ (ascii "Upgrade: websocket" ++ crlf), crlf ++ crlf,
      by decide, by decide⟩
  exact ⟨by decide, (handshakes_iff sample [0x82] (by decide) (by decide) (by decide) noHeader
    noStale).mpr ⟨by decide, by decide, hkey⟩ sampleDigest⟩

/-- The request comes byte by byte, and is refused whatever the digest is. -/
theorem bytewise_not_handshakes :
    sample.text.length < websockReadStrLen ∧
      (Socket.bytewise sample.text).flat = sample.text ++ [] ∧
      (Socket.bytewise sample.text).Clean ∧
      ∀ sha1,
        (∀ writes, ∃ s', authenticate sha1 writes
          (start (Socket.bytewise sample.text) noHeader noStale) = some (-1, [], s')) ∧
        ¬ Handshakes sha1 sample [] (start (Socket.bytewise sample.text) noHeader noStale) := by
  have hfits : sample.text.length < websockReadStrLen := by decide
  have hflat : (Socket.bytewise sample.text).flat = sample.text ++ [] := by
    rw [Socket.flat_bytewise, List.append_nil]
  have htext : sample.text = [0x47] ++ sample.text.tail := rfl
  have hrefused : ∀ sha1 writes, ∃ s', authenticate sha1 writes
      (start (Socket.bytewise sample.text) noHeader noStale) = some (-1, [], s') :=
    authenticate_short noHeader noStale hfits rfl htext (by decide)
  refine ⟨hfits, hflat, Socket.clean_bytewise _, fun sha1 => ⟨hrefused sha1, fun h => ?_⟩⟩
  obtain ⟨ret, isProtocol, s', hauth, hret, -⟩ := h (fun _ => 1) (fun _ => Int.one_pos)
  obtain ⟨s'', hnone⟩ := hrefused sha1 (fun _ => 1)
  rw [hnone, Option.some.injEq, Prod.mk.injEq] at hauth
  omega

end Koheron.WebSocket
