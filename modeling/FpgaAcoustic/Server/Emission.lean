-- SUMMARY: WebSocket::send: the buffer that it fills, the writes that empty it, and the frame on the wire.
import FpgaAcoustic.Server.Frame

/-!
# Emission

A block is sent as one frame without a mask. The whole frame is put together in
a buffer of the session, in which every write is checked here, and is then given
to `write` until nothing remains.
-/

namespace Koheron.WebSocket

open Bytes

/-- `WEBSOCK_SEND_BUF_LEN`. -/
def websockSendBufLen : ℕ := 16384 * 16

/-! ## Writes into the buffer -/

/-- `memset(bits, 0, len)`; a write out of bounds has no result. -/
def memset (len : ℕ) (buf : Memory) : Option Memory :=
  if len ≤ websockSendBufLen then some fun i => if i < len then 0 else buf i else none

/-- `bits[i] = b`. -/
def store (i : ℕ) (b : Byte) (buf : Memory) : Option Memory :=
  if i < websockSendBufLen then some (Function.update buf i b) else none

/-- `memcpy(&bits[offset], data, len)`. -/
def memcpy (offset : ℕ) (data : List Byte) (buf : Memory) : Option Memory :=
  if offset + data.length ≤ websockSendBufLen then some (buf.writeAt offset data) else none

/-- Consecutive stores from an index on. -/
def stores (i : ℕ) : List Byte → Memory → Option Memory
  | [], buf => some buf
  | b :: bs, buf => do stores (i + 1) bs (← store i b buf)

/-- `set_send_header`: the offset of the data, and the buffer. -/
def setSendHeader (dataLen : BitVec 64) (format : Byte) (buf : Memory) : Option (ℕ × Memory) := do
  let buf ← memset (10 + dataLen.toNat) buf
  let buf ← store 0 format buf
  if dataLen.toInt ≤ smallStream then
    let buf ← stores 1 [dataLen.setWidth 8] buf
    pure (Form.small.maskOffset, buf)
  else if dataLen.toInt ≤ 0xffff then
    let buf ← stores 1 [BitVec.ofNat 8 mediumStream, byteAt dataLen 8, byteAt dataLen 0] buf
    pure (Form.medium.maskOffset, buf)
  else
    let buf ← stores 1 [BitVec.ofNat 8 bigStream, byteAt dataLen 56, byteAt dataLen 48,
      byteAt dataLen 40, byteAt dataLen 32, byteAt dataLen 24, byteAt dataLen 16,
      byteAt dataLen 8, byteAt dataLen 0] buf
    pure (Form.big.maskOffset, buf)

/-! ## Sending -/

/-- The loop of `send_request`, with what `write` returns each time; a positive
count is at most what remains. The last of them, and the bytes on the wire. -/
def sendLoop (writes : ℕ → ℤ) (bits : Memory) (i offset remaining : ℕ) (bytesSend : ℤ) :
    ℤ × List Byte :=
  if h : 0 < remaining ∧ 0 < writes i then
    let count := min (writes i).toNat remaining
    have : remaining - count < remaining := by omega
    let r := sendLoop writes bits (i + 1) (offset + count) (remaining - count) count
    (r.1, (bits.drop offset).take count ++ r.2)
  else if 0 < remaining then (writes i, [])
  else (bytesSend, [])

structure Sender where
  connectionClosed : Bool
  sendBuf : Memory

/-- What is returned, the bytes on the wire, and the session then. -/
def sendRequest (writes : ℕ → ℤ) (len : ℕ) (s : Sender) : ℤ × List Byte × Sender :=
  if s.connectionClosed then (0, [], s)
  else
    let r := sendLoop writes s.sendBuf 0 0 len 0
    if r.1 < 0 then (-1, r.2, { s with connectionClosed := true }) else (r.1, r.2, s)

/-- A block of values in memory, apart from the buffer of the session. -/
structure Block (addressBits : ℕ) where
  len : BitVec 32
  size : ℕ
  bytes : List Byte
  length_bytes : bytes.length = len.toNat * size
  room : bytes.length + websockSendBufLen ≤ 2 ^ addressBits

/-- `len * sizeof(T) / sizeof(char)`, a `size_t`. -/
def Block.charDataLen {addressBits : ℕ} (block : Block addressBits) : BitVec addressBits :=
  block.len.setWidth addressBits * BitVec.ofNat addressBits block.size

/-- `send`; nothing where it writes out of bounds. -/
def send {addressBits : ℕ} (writes : ℕ → ℤ) (block : Block addressBits) (s : Sender) :
    Option (ℤ × List Byte × Sender) :=
  if s.connectionClosed then some (0, [], s)
  else if (block.charDataLen + BitVec.ofNat addressBits 10).toNat > websockSendBufLen then
    some (-1, [], s)
  else do
    let (maskOffset, buf) ← setSendHeader (block.charDataLen.setWidth 64)
      (BitVec.ofNat 8 (1 <<< 7) + binaryFrame) s.sendBuf
    let buf ← memcpy maskOffset block.bytes buf
    pure (sendRequest writes (maskOffset + block.charDataLen.toNat) { s with sendBuf := buf })

/-! ## Frames of the server -/

/-- A final binary frame without a mask. -/
def serverFrame (form : Form) (data : List Byte) : List Byte :=
  [(1#1 ++ 0#3 ++ 2#4 : Byte), 0#1 ++ form.code data.length] ++ form.extended data.length ++ data

/-- The form carries this length, and no shorter one does. -/
def Form.Minimal (form : Form) (n : ℕ) : Prop :=
  form.Carries n ∧ ∀ form' : Form, form'.Carries n → form.headerSize ≤ form'.headerSize

/-- The form for a length. -/
def Form.ofLength (n : ℕ) : Form :=
  if n ≤ smallStream then .small else if n ≤ 0xffff then .medium else .big

theorem Form.minimal_ofLength {n : ℕ} (h : n < 2 ^ 63) : (ofLength n).Minimal n := by
  unfold ofLength smallStream
  split_ifs with hsmall hmedium
  · refine ⟨hsmall, fun form' _ => ?_⟩
    cases form' <;> decide
  · refine ⟨Nat.lt_succ_of_le hmedium, fun form' hcarries => ?_⟩
    cases form' with
    | small => exact absurd hcarries hsmall
    | medium => exact le_refl _
    | big => decide
  · refine ⟨h, fun form' hcarries => ?_⟩
    cases form' with
    | small => exact absurd hcarries hsmall
    | medium => exact absurd (Nat.le_of_lt_succ hcarries) hmedium
    | big => exact le_refl _

/-! ## The header -/

section Header

variable {buf : Memory} {n : ℕ}

theorem stores_starts {bs : List Byte} (cs : List Byte) (hstarts : buf.Starts bs)
    (h : bs.length + cs.length ≤ websockSendBufLen) :
    ∃ buf', stores bs.length cs buf = some buf' ∧ buf'.Starts (bs ++ cs) := by
  induction cs generalizing bs buf with
  | nil => exact ⟨buf, rfl, by rwa [List.append_nil]⟩
  | cons c cs ih =>
    rw [List.length_cons] at h
    have hstore : store bs.length c buf = some (Function.update buf bs.length c) :=
      if_pos (by omega)
    have hnext : Memory.Starts (Function.update buf bs.length c) (bs ++ [c]) := by
      rw [Memory.starts_iff] at hstarts ⊢
      intro i hi
      rcases Nat.lt_or_ge i bs.length with hlt | hge
      · rw [Function.update_of_ne (by omega), List.getElem_append_left hlt]
        exact hstarts i hlt
      · rw [List.length_append, List.length_singleton] at hi
        obtain rfl : i = bs.length := by omega
        rw [Function.update_self]
        simp
    obtain ⟨buf', hstores, hstarts'⟩ := ih hnext (by
      rw [List.length_append, List.length_singleton]
      omega)
    rw [List.length_append, List.length_singleton] at hstores
    refine ⟨buf', ?_, by rwa [List.append_assoc] at hstarts'⟩
    rw [stores, hstore]
    exact hstores

/-- All of the header is stored, one byte after another. -/
theorem header_stores (format : Byte) (cs : List Byte) (buf : Memory)
    (h : 1 + cs.length ≤ websockSendBufLen) :
    ∃ buf', (do stores 1 cs (← store 0 format buf)) = some buf' ∧ buf'.Starts (format :: cs) := by
  obtain ⟨buf', hstores, hstarts⟩ := @stores_starts buf [] (format :: cs) rfl (by
    rw [List.length_nil, List.length_cons]
    omega)
  exact ⟨buf', hstores, hstarts⟩

theorem byteAt_ofNat {w : ℕ} (k : ℕ) (hw : 8 ≤ w) (hn : n < 2 ^ w) :
    byteAt (BitVec.ofNat w n) k = BitVec.ofNat 8 (n / 2 ^ k) := by
  apply BitVec.eq_of_toNat_eq
  rw [toNat_byteAt _ _ hw, BitVec.toNat_ofNat, BitVec.toNat_ofNat, Nat.mod_eq_of_lt hn]

/-- The bytes after the first. -/
def Form.lengthBytes (form : Form) (n : ℕ) : List Byte :=
  (0#1 ++ form.code n : Byte) :: form.extended n

theorem Form.length_lengthBytes (form : Form) (n : ℕ) :
    1 + (form.lengthBytes n).length = form.maskOffset := by
  cases form <;> rfl

theorem lengthBytes_small (h : n ≤ smallStream) :
    [(BitVec.ofNat 64 n).setWidth 8] = Form.small.lengthBytes n := by
  have hbyte : ∀ k : BitVec 7, (0#1 ++ k : Byte) = BitVec.ofNat 8 k.toNat := by decide
  have hcode : (BitVec.ofNat 7 n).toNat = n := Nat.mod_eq_of_lt (by unfold smallStream at h; omega)
  rw [Form.lengthBytes, Form.code, hbyte, hcode]
  refine congrArg (fun b : Byte => [b]) (BitVec.eq_of_toNat_eq ?_)
  rw [BitVec.toNat_setWidth, BitVec.toNat_ofNat, BitVec.toNat_ofNat]
  omega

theorem lengthBytes_medium (h : n ≤ 0xffff) :
    [BitVec.ofNat 8 mediumStream, byteAt (BitVec.ofNat 64 n) 8, byteAt (BitVec.ofNat 64 n) 0] =
      Form.medium.lengthBytes n := by
  have hext : Form.medium.extended n = [BitVec.ofNat 8 (n / 2 ^ 8), BitVec.ofNat 8 (n / 2 ^ 0)] := by
    rw [Form.extended, append16, byteAt_ofNat 8 (by decide) (by omega),
      byteAt_ofNat 0 (by decide) (by omega)]
  have hcode : (0#1 ++ Form.medium.code n : Byte) = BitVec.ofNat 8 mediumStream := by
    rw [show Form.medium.code n = 126 from rfl]
    decide
  rw [Form.lengthBytes, hext, hcode, byteAt_ofNat 8 (by decide) (by omega),
    byteAt_ofNat 0 (by decide) (by omega)]

theorem lengthBytes_big (v : BitVec 64) :
    [BitVec.ofNat 8 bigStream, byteAt v 56, byteAt v 48, byteAt v 40, byteAt v 32, byteAt v 24,
      byteAt v 16, byteAt v 8, byteAt v 0] = (0#1 ++ 127#7 : Byte) :: append64 v := by
  have hhigh : ∀ k, k ≤ 24 → byteAt ((v >>> 32).setWidth 32) k = byteAt v (32 + k) := by
    intro k hk
    apply BitVec.eq_of_toNat_eq
    rw [toNat_byteAt _ _ (by decide), toNat_byteAt _ _ (by decide), BitVec.toNat_setWidth,
      BitVec.toNat_ushiftRight, Nat.shiftRight_eq_div_pow, Nat.pow_add, ← Nat.div_div_eq_div_mul]
    have hlt : v.toNat / 2 ^ 32 < 2 ^ 32 := Nat.div_lt_of_lt_mul v.isLt
    rw [Nat.mod_eq_of_lt hlt]
  have hlow : ∀ k, k ≤ 24 → byteAt (v.setWidth 32) k = byteAt v k := by
    intro k hk
    apply BitVec.eq_of_toNat_eq
    have hpow : 2 ^ 32 = 2 ^ k * 2 ^ (32 - k) := by
      rw [← Nat.pow_add, Nat.add_sub_cancel' (by omega)]
    rw [toNat_byteAt _ _ (by decide), toNat_byteAt _ _ (by decide), BitVec.toNat_setWidth, hpow,
      Nat.mod_mul_right_div_self]
    exact Nat.mod_mod_of_dvd _ (Nat.pow_dvd_pow 2 (show 8 ≤ 32 - k by omega))
  rw [append64, append32, append32, hhigh 24 (by decide), hhigh 16 (by decide),
    hhigh 8 (by decide), hhigh 0 (by decide), hlow 24 (by decide), hlow 16 (by decide),
    hlow 8 (by decide), hlow 0 (by decide)]
  rfl

theorem memset_eq (buf : Memory) (h : n ≤ websockSendBufLen) : ∃ buf', memset n buf = some buf' :=
  ⟨_, if_pos h⟩

theorem setSendHeader_eq (format : Byte) (buf : Memory) (h : n + 10 ≤ websockSendBufLen) :
    ∃ buf', setSendHeader (BitVec.ofNat 64 n) format buf =
        some ((Form.ofLength n).maskOffset, buf') ∧
      buf'.Starts (format :: (Form.ofLength n).lengthBytes n) := by
  have hsmallBuf : n < 2 ^ 18 := by unfold websockSendBufLen at h; omega
  have htoNat : (BitVec.ofNat 64 n).toNat = n := Nat.mod_eq_of_lt (by omega)
  have htoInt : (BitVec.ofNat 64 n).toInt = n := by
    rw [BitVec.toInt_eq_toNat_of_lt (by omega), htoNat]
  obtain ⟨buf₁, hmemset⟩ := memset_eq buf (show 10 + n ≤ websockSendBufLen by omega)
  have hfits : 1 + ((Form.ofLength n).lengthBytes n).length ≤ websockSendBufLen := by
    rw [Form.length_lengthBytes]
    exact Nat.le_trans (by cases Form.ofLength n <;> decide) (show 10 ≤ websockSendBufLen by decide)
  obtain ⟨buf₂, hstores, hstarts⟩ := header_stores format _ buf₁ hfits
  obtain ⟨buf', hstore, hrest⟩ := Option.bind_eq_some_iff.mp hstores
  refine ⟨buf₂, ?_, hstarts⟩
  have hcast : ((n : ℤ) ≤ 0xffff) = (n ≤ 0xffff) := propext Int.ofNat_le
  rw [setSendHeader, htoNat, hmemset, htoInt]
  simp only [Option.bind_eq_bind, Option.bind_some, hstore, Nat.cast_le, hcast]
  unfold Form.ofLength at hrest ⊢
  split_ifs at hrest ⊢ with hsmall hmedium
  · rw [lengthBytes_small hsmall, hrest]
    rfl
  · rw [lengthBytes_medium hmedium, hrest]
    rfl
  · rw [lengthBytes_big]
    have hbig : (0#1 ++ 127#7 : Byte) :: append64 (BitVec.ofNat 64 n) =
        Form.big.lengthBytes n := rfl
    rw [hbig, hrest]
    rfl

end Header

/-! ## The frame on the wire -/

section Send

variable {writes : ℕ → ℤ} {addressBits : ℕ} {s : Sender}

/-- However the writes split them up, all bytes go out. -/
theorem sendLoop_wire (hpos : ∀ i, 0 < writes i) (bits : Memory) (i offset remaining : ℕ)
    (bytesSend : ℤ) (hsend : 0 ≤ bytesSend) :
    (sendLoop writes bits i offset remaining bytesSend).2 = (bits.drop offset).take remaining ∧
      0 ≤ (sendLoop writes bits i offset remaining bytesSend).1 := by
  induction remaining using Nat.strong_induction_on generalizing i offset bytesSend with
  | _ remaining ih =>
    unfold sendLoop
    by_cases hremaining : 0 < remaining
    · have hwrite := hpos i
      rw [dif_pos ⟨hremaining, hwrite⟩]
      obtain ⟨hwire, hlast⟩ := ih (remaining - min (writes i).toNat remaining) (by omega) (i + 1)
        (offset + min (writes i).toNat remaining) (min (writes i).toNat remaining : ℕ)
        (Int.natCast_nonneg _)
      refine ⟨?_, hlast⟩
      dsimp only
      rw [hwire, ← Memory.drop_drop, ← Memory.take_add,
        Nat.add_sub_cancel' (Nat.min_le_right _ remaining)]
    · obtain rfl : remaining = 0 := by omega
      rw [dif_neg fun h => hremaining h.1, if_neg hremaining]
      exact ⟨rfl, hsend⟩

theorem sendRequest_wire (hpos : ∀ i, 0 < writes i) (hopen : s.connectionClosed = false)
    {frame : List Byte} (hstarts : s.sendBuf.Starts frame) :
    ∃ ret, 0 ≤ ret ∧ sendRequest writes frame.length s = (ret, frame, s) := by
  obtain ⟨hwire, hlast⟩ := sendLoop_wire hpos s.sendBuf 0 0 frame.length 0 (le_refl 0)
  rw [Memory.drop_zero, hstarts] at hwire
  refine ⟨(sendLoop writes s.sendBuf 0 0 frame.length 0).1, hlast, ?_⟩
  rw [sendRequest, hopen, if_neg Bool.false_ne_true]
  dsimp only
  rw [if_neg hlast.not_gt, hwire]

theorem toNat_charDataLen (block : Block addressBits) :
    block.charDataLen.toNat = block.bytes.length := by
  have hroom := block.room
  have hlt : block.bytes.length < 2 ^ addressBits := by
    have hpos : 0 < websockSendBufLen := by decide
    omega
  rw [Block.charDataLen, BitVec.toNat_mul, BitVec.toNat_setWidth, BitVec.toNat_ofNat,
    ← Nat.mul_mod, ← block.length_bytes, Nat.mod_eq_of_lt hlt]

/-- The sum is compared as a `size_t`, but no block is as long as would wrap it. -/
theorem toNat_charDataLen_add (block : Block addressBits) :
    (block.charDataLen + BitVec.ofNat addressBits 10).toNat = block.bytes.length + 10 := by
  have hroom := block.room
  have hten : 10 < websockSendBufLen := by decide
  rw [BitVec.toNat_add, toNat_charDataLen, BitVec.toNat_ofNat, Nat.add_mod_mod,
    Nat.mod_eq_of_lt (by omega)]

theorem length_serverFrame (form : Form) (data : List Byte) :
    (serverFrame form data).length = form.maskOffset + data.length := by
  rw [← form.length_lengthBytes data.length, serverFrame, Form.lengthBytes]
  simp only [List.length_append, List.length_cons, List.length_nil]
  omega

/-- The data come after the header, in the buffer. -/
theorem memcpy_frame {form : Form} {data : List Byte} {buf : Memory}
    (hstarts : buf.Starts ((0x82 : Byte) :: form.lengthBytes data.length))
    (h : data.length + 10 ≤ websockSendBufLen) :
    ∃ buf', memcpy form.maskOffset data buf = some buf' ∧
      buf'.Starts (serverFrame form data) := by
  have hoffset : form.maskOffset ≤ 10 := by cases form <;> decide
  refine ⟨buf.writeAt form.maskOffset data, if_pos (by omega), ?_⟩
  have hwritten := Memory.writeAt_starts hstarts data
  rw [List.length_cons, Nat.add_comm, form.length_lengthBytes] at hwritten
  exact hwritten

/-- A block that has room in the buffer goes out as one frame in its shortest
form, whatever the counts of the writes, and no other block is sent. -/
theorem send_frame (writes : ℕ → ℤ) (hpos : ∀ i, 0 < writes i) (block : Block addressBits)
    (s : Sender) (hopen : s.connectionClosed = false) :
    (block.bytes.length + 10 ≤ websockSendBufLen → ∃ ret s' form,
        form.Minimal block.bytes.length ∧
          send writes block s = some (ret, serverFrame form block.bytes, s')) ∧
      (websockSendBufLen < block.bytes.length + 10 → send writes block s = some (-1, [], s)) := by
  constructor
  · intro hfits
    have hlt : block.bytes.length < 2 ^ 18 := by
      unfold websockSendBufLen at hfits
      omega
    have hlen64 : block.charDataLen.setWidth 64 = BitVec.ofNat 64 block.bytes.length := by
      apply BitVec.eq_of_toNat_eq
      rw [BitVec.toNat_setWidth, toNat_charDataLen, BitVec.toNat_ofNat]
    have hformat : BitVec.ofNat 8 (1 <<< 7) + binaryFrame = 0x82 := rfl
    obtain ⟨buf₁, hheader, hstarts₁⟩ := setSendHeader_eq 0x82 s.sendBuf hfits
    obtain ⟨buf₂, hcopy, hstarts₂⟩ := memcpy_frame hstarts₁ hfits
    obtain ⟨ret, -, hsend⟩ := sendRequest_wire (s := { s with sendBuf := buf₂ }) hpos hopen hstarts₂
    rw [length_serverFrame, hopen] at hsend
    refine ⟨ret, { s with sendBuf := buf₂ }, Form.ofLength block.bytes.length,
      Form.minimal_ofLength (by omega), ?_⟩
    rw [send, hopen, if_neg Bool.false_ne_true, toNat_charDataLen_add, if_neg (by omega), hlen64,
      hformat, hheader]
    simp only [Option.bind_eq_bind, Option.bind_some, hcopy, toNat_charDataLen]
    exact congrArg some hsend
  · intro hlarge
    rw [send, hopen, if_neg Bool.false_ne_true, toNat_charDataLen_add, if_pos hlarge]

/-- 126 bytes, of which the writes take 100 at a time. -/
def hundredTwentySix : Block 32 where
  len := 126
  size := 1
  bytes := List.replicate 126 7
  length_bytes := by rw [List.length_replicate]; rfl
  room := by rw [List.length_replicate]; decide

def openSender : Sender := ⟨false, fun _ => 0⟩

theorem hundredTwentySix_send_frame :
    ∃ ret s' form, form.Minimal 126 ∧
      send (fun _ => 100) hundredTwentySix openSender =
        some (ret, serverFrame form (List.replicate 126 7), s') := by
  have hlength : hundredTwentySix.bytes.length = 126 := List.length_replicate
  have hsend := (send_frame (fun _ => 100) (fun _ => by decide) hundredTwentySix openSender rfl).1
    (by rw [hlength]; decide)
  rw [hlength] at hsend
  exact hsend

end Send

end Koheron.WebSocket
