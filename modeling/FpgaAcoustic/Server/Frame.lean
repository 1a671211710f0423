-- SUMMARY: WebSocket frames as a client sends them, and what the session makes of a complete frame and of one that is cut off.
import FpgaAcoustic.Server.WebSocket

/-!
# Frames

A frame of a client is masked. Its header gives the length of the payload in
one of three forms, and a short length may travel in a long form.
-/

namespace Koheron.WebSocket

open Bytes

/-- The form has room for this length. -/
def Form.Carries : Form → ℕ → Prop
  | small, n => n ≤ 125
  | medium, n => n < 2 ^ 16
  | big, n => n < 2 ^ 63

/-- The seven bits after the mask flag. -/
def Form.code : Form → ℕ → BitVec 7
  | small, n => BitVec.ofNat 7 n
  | medium, _ => 126
  | big, _ => 127

/-- The bytes of a length that the seven bits do not hold. -/
def Form.extended : Form → ℕ → List Byte
  | small, _ => []
  | medium, n => append16 (BitVec.ofNat 16 n)
  | big, n => append64 (BitVec.ofNat 64 n)

structure Frame where
  fin : Bool
  rsv : BitVec 3
  opcode : BitVec 4
  form : Form
  mask : Fin 4 → Byte
  payload : List Byte
  carries : form.Carries payload.length

namespace Frame

variable (f : Frame)

def first : Byte := BitVec.ofBool f.fin ++ f.rsv ++ f.opcode

def second : Byte := 1#1 ++ f.form.code f.payload.length

/-- Everything before the payload. -/
def head : List Byte :=
  [f.first, f.second] ++ f.form.extended f.payload.length ++ List.ofFn f.mask

def maskAt (i : ℕ) : Byte := f.mask ⟨i % 4, Nat.mod_lt i (by decide)⟩

def maskedPayload : List Byte := f.payload.mapIdx fun i b => b ^^^ f.maskAt i

def encode : List Byte := f.head ++ f.maskedPayload

/-- The header that the session records. -/
def header : Header where
  headerSize := f.form.headerSize
  maskOffset := f.form.maskOffset
  payloadSize := f.payload.length
  fin := f.fin
  masked := true
  opcode := f.opcode.setWidth 8

/-- The frames of which the session executes the command. -/
structure Accepted : Prop where
  opcode : f.opcode = 1 ∨ f.opcode = 2
  large : headerSize ≤ f.payload.length
  fits : f.payload.length ≤ websockReadStrLen - 56
  -- The check for a full buffer compares with the size of another buffer.
  full : f.form.headerSize + f.payload.length ≠ koheronReadStrLen

instance : Decidable f.Accepted :=
  decidable_of_iff
    ((f.opcode = 1 ∨ f.opcode = 2) ∧ headerSize ≤ f.payload.length ∧
      f.payload.length ≤ websockReadStrLen - 56 ∧
      f.form.headerSize + f.payload.length ≠ koheronReadStrLen)
    ⟨fun ⟨h₁, h₂, h₃, h₄⟩ => ⟨h₁, h₂, h₃, h₄⟩, fun ⟨h₁, h₂, h₃, h₄⟩ => ⟨h₁, h₂, h₃, h₄⟩⟩

theorem length_head : f.head.length = f.form.headerSize := by
  cases hform : f.form <;> simp [head, hform, Form.extended, append16, append64, append32] <;> rfl

theorem length_maskedPayload : f.maskedPayload.length = f.payload.length := by
  simp [maskedPayload]

end Frame

theorem first_bits : ∀ (fin : Bool) (rsv : BitVec 3) (opcode : BitVec 4),
    (BitVec.ofBool fin ++ rsv ++ opcode : Byte) &&& 0x0f = opcode.setWidth 8 ∧
      ((BitVec.ofBool fin ++ rsv ++ opcode : Byte) &&& 0x80 != 0) = fin := by
  decide

theorem second_bits : ∀ code : BitVec 7,
    ((1#1 ++ code : Byte) &&& 0x80 != 0) = true ∧
      ((1#1 ++ code : Byte) &&& 0x7f).toNat = code.toNat := by
  decide

/-! ## Reading from a connection on which no read fails -/

/-- Where no read fails, one pass of the outer loop is enough. -/
theorem readLoop_clean {sock : Socket} (h : sock.Clean) (len n : ℕ) :
    readLoop len n sock =
      (match (sock.receive n).1 with
        | .full => if len + n = koheronReadStrLen then -1 else 0
        | _ => 1, (sock.receive n).2) := by
  induction sock generalizing len n with
  | nil => cases n <;> rfl
  | cons e sock ih =>
    cases n with
    | zero => rfl
    | succ n =>
      cases e with
      | error => simp [Socket.Clean] at h
      | data b bs =>
        rcases le_or_gt (b :: bs).length (n + 1) with hle | hgt
        · have hsum : len + (b :: bs).length + (n + 1 - (b :: bs).length) = len + (n + 1) := by omega
          rw [readLoop, if_pos hle, Socket.receive_data_le hle, ih h.tail, hsum]
        · rw [readLoop, if_neg hgt.not_ge, Socket.receive, if_neg hgt.not_ge]
          cases (b :: bs).drop (n + 1) with
          | nil => rfl
          | cons c cs => rfl

/-- The connection is open, and `bs` has been read into the buffer, and `rest` not. -/
structure Received (s : State) (bs rest : List Byte) : Prop where
  starts : s.readStr.Starts bs
  length : s.readStrLen = bs.length
  flat : s.sock.flat = rest
  clean : s.sock.Clean
  opened : s.connectionClosed = false

theorem readNBytes_received {s : State} {bs cs rest : List Byte}
    (h : Received s bs (cs ++ rest)) (hcs : 0 < cs.length) :
    ∃ s', readNBytes cs.length s =
        (if bs.length + cs.length = koheronReadStrLen then -1 else 0, s') ∧
      Received s' (bs ++ cs) rest ∧ s'.header = s.header ∧ s'.stale = s.stale := by
  obtain ⟨sock', hrec, hflat, hclean⟩ := Socket.receive_full h.flat
  have hloop := readLoop_clean h.clean s.readStrLen cs.length
  simp only [hrec, h.length] at hloop
  have hopen : (s.connectionClosed || (if bs.length + cs.length = koheronReadStrLen then
      (-1 : ℤ) else 0) == 1) = false := by
    rw [h.opened]
    split <;> rfl
  refine ⟨{ s with
    sock := sock'
    readStr := s.readStr.writeAt bs.length cs
    readStrLen := bs.length + cs.length
    connectionClosed := false }, ?_, ⟨?_, ?_, hflat, hclean h.clean, rfl⟩, rfl, rfl⟩
  · rw [readNBytes, if_neg (by omega), Int.toNat_natCast, h.length, hloop]
    simp only [hopen]
  · exact Memory.writeAt_starts h.starts cs
  · exact List.length_append.symm

/-- The connection ends before the wanted bytes have come. -/
theorem readNBytes_cut {s : State} {bs rest : List Byte} {n : ℕ} (h : Received s bs rest)
    (hlt : rest.length < n) :
    ∃ s', readNBytes n s = (1, s') ∧ s'.connectionClosed = true := by
  have hflat := h.flat
  have hloop := readLoop_clean h.clean s.readStrLen n
  rw [Socket.receive_short h.clean (by rw [hflat]; exact hlt)] at hloop
  rw [readNBytes, if_neg (by omega), Int.toNat_natCast, hloop]
  exact ⟨_, rfl, Bool.or_true _⟩

theorem readNBytes_closed {s : State} (h : s.connectionClosed = true) (n : ℤ) :
    (readNBytes n s).2.connectionClosed = true := by
  unfold readNBytes
  split
  · exact h
  · simp [h]

/-! ## The header -/

theorem setPayloadSize_eq (form : Form) (payloadSize : ℤ) (s : State) :
    setPayloadSize form payloadSize s =
      (if payloadSize > (websockReadStrLen - 56 : ℕ) then -1 else 0,
        { s with header := ⟨form.headerSize, form.maskOffset, payloadSize, s.header.fin,
          s.header.masked, s.header.opcode⟩ }) := by
  unfold setPayloadSize
  dsimp only
  split <;> rfl

section Frame

variable {f : Frame} {s : State} {rest : List Byte}

theorem toNat_code_small (h : f.form = .small) :
    (f.form.code f.payload.length).toNat = f.payload.length ∧ f.payload.length ≤ smallStream := by
  have hle : f.payload.length ≤ 125 := by
    have hcarries := f.carries
    rwa [h] at hcarries
  refine ⟨?_, hle⟩
  rw [h]
  exact Nat.mod_eq_of_lt (by omega)

theorem head_starts_extended {m : Memory} (h : m.Starts f.head) :
    (m.drop 2).Starts (f.form.extended f.payload.length) := by
  rw [Frame.head, List.append_assoc] at h
  exact (Memory.starts_append.mp (Memory.starts_append.mp h).2).1

/-- The rest of a header that has more than six bytes. -/
theorem readNBytes_head {k : ℕ} (h : Received s (f.head.take 6) (f.head.drop 6 ++ rest))
    (hform : f.form.headerSize = 6 + k) (hk : 0 < k) (hlt : k < 10) :
    ∃ s', readNBytes k s = (0, s') ∧ Received s' f.head rest ∧ s'.header = s.header ∧
      s'.stale = s.stale := by
  have hlen := f.length_head
  have hdrop : (f.head.drop 6).length = k := by
    rw [List.length_drop]
    omega
  have htake : (f.head.take 6).length = 6 := by
    rw [List.length_take]
    omega
  obtain ⟨s', hread, hreceived, hframe⟩ := readNBytes_received h (by omega)
  rw [hdrop, htake, if_neg (by unfold koheronReadStrLen; omega)] at hread
  rw [List.take_append_drop] at hreceived
  exact ⟨s', hread, hreceived, hframe⟩

/-- With the rest of the header ahead the size is found, whichever the form. -/
theorem readPayloadSize_complete
    (h : Received s (f.head.take 6) (f.head.drop 6 ++ rest)) :
    ∃ s', readPayloadSize (f.form.code f.payload.length).toNat s =
        setPayloadSize f.form f.payload.length s' ∧
      Received s' f.head rest ∧ s'.header = s.header ∧ s'.stale = s.stale := by
  have hcarries := f.carries
  cases hform : f.form with
  | small =>
    obtain ⟨hcode, hle⟩ := toNat_code_small hform
    rw [hform] at hcode
    refine ⟨s, ?_, ?_, rfl, rfl⟩
    · rw [hcode, readPayloadSize, if_pos hle]
    · have hlen : f.head.length = 6 := by rw [f.length_head, hform]; rfl
      rwa [List.drop_of_length_le hlen.le, List.nil_append,
        List.take_of_length_le hlen.le] at h
  | medium =>
    rw [hform] at hcarries
    obtain ⟨s', hread, hreceived, hheader, hstale⟩ :=
      @readNBytes_head _ _ _ 2 h (by rw [hform]; rfl) (by decide) (by decide)
    refine ⟨s', ?_, hreceived, hheader, hstale⟩
    have hfield := head_starts_extended hreceived.starts
    rw [hform] at hfield
    have hsize : (extract16 (s'.readStr.drop 2)).toNat = f.payload.length := by
      rw [extract16_append hfield, BitVec.toNat_ofNat]
      exact Nat.mod_eq_of_lt hcarries
    have hcode : (Form.medium.code f.payload.length).toNat = mediumStream := rfl
    rw [hcode, readPayloadSize, if_neg (by decide), if_pos rfl]
    have hread' : readNBytes 2 s = (0, s') := hread
    simp only [hread', hreceived.opened, hsize, lt_irrefl, if_false, Bool.false_eq_true]
  | big =>
    rw [hform] at hcarries
    obtain ⟨s', hread, hreceived, hheader, hstale⟩ :=
      @readNBytes_head _ _ _ 8 h (by rw [hform]; rfl) (by decide) (by decide)
    refine ⟨s', ?_, hreceived, hheader, hstale⟩
    have hfield := head_starts_extended hreceived.starts
    rw [hform] at hfield
    have hsize : (extract64 (s'.readStr.drop 2)).toInt = f.payload.length := by
      have hlt : f.payload.length < 2 ^ 63 := hcarries
      have hnat : (BitVec.ofNat 64 f.payload.length).toNat = f.payload.length :=
        Nat.mod_eq_of_lt (by omega)
      rw [extract64_append hfield, BitVec.toInt_eq_toNat_of_lt (by omega), hnat]
    have hcode : (Form.big.code f.payload.length).toNat = bigStream := rfl
    rw [hcode, readPayloadSize, if_neg (by decide), if_neg (by decide), if_pos rfl]
    have hread' : readNBytes 8 s = (0, s') := hread
    simp only [hread', hreceived.opened, hsize, lt_irrefl, if_false, Bool.false_eq_true]

/-- What the first six bytes decide. -/
theorem readHeader_eq (h : Received s [] (f.head.take 6 ++ rest)) :
    ∃ s', Received s' (f.head.take 6) rest ∧ s'.stale = s.stale ∧
      s'.header.fin = f.fin ∧ s'.header.masked = true ∧
      s'.header.opcode = f.opcode.setWidth 8 ∧
      readHeader s =
        if checkOpcode (f.opcode.setWidth 8) < 0 then (-1, s')
        else if checkOpcode (f.opcode.setWidth 8) = 1 then
          (checkOpcode (f.opcode.setWidth 8), { s' with connectionClosed := true })
        else readPayloadSize (f.form.code f.payload.length).toNat s' := by
  have hsix : (f.head.take 6).length = 6 := by
    have hlen := f.length_head
    have hge : 6 ≤ f.form.headerSize := by cases f.form <;> decide
    rw [List.length_take]
    omega
  obtain ⟨s₁, hread, hreceived, -, hstale⟩ := readNBytes_received h (by omega)
  rw [hsix, List.length_nil, if_neg (by decide)] at hread
  have hread' : readNBytes 6 s = (0, s₁) := hread
  obtain ⟨h0, h1⟩ : s₁.readStr 0 = f.first ∧ s₁.readStr 1 = f.second := by
    have hstarts := hreceived.starts
    rw [List.nil_append, Frame.head, List.append_assoc, List.cons_append, List.cons_append,
      List.take_succ_cons, List.take_succ_cons] at hstarts
    obtain ⟨hfirst, htail⟩ := Memory.starts_cons.mp hstarts
    exact ⟨hfirst, (Memory.starts_cons.mp htail).1⟩
  obtain ⟨hopcode, hfin⟩ := first_bits f.fin f.rsv f.opcode
  obtain ⟨hmasked, hcode⟩ := second_bits (f.form.code f.payload.length)
  have hop : s₁.readStr 0 &&& 0x0f = f.opcode.setWidth 8 := by rw [h0]; exact hopcode
  have hsize : (s₁.readStr 1 &&& 0x7f).toNat = (f.form.code f.payload.length).toNat := by
    rw [h1]
    exact hcode
  refine ⟨{ s₁ with header := { s₁.header with
      fin := s₁.readStr 0 &&& 0x80 != 0, masked := s₁.readStr 1 &&& 0x80 != 0
      opcode := s₁.readStr 0 &&& 0x0f } }, ?_, hstale, ?_, ?_, hop, ?_⟩
  · exact ⟨hreceived.starts, hreceived.length, hreceived.flat, hreceived.clean, hreceived.opened⟩
  · exact (congrArg (fun b : Byte => b &&& 0x80 != 0) h0).trans hfin
  · exact (congrArg (fun b : Byte => b &&& 0x80 != 0) h1).trans hmasked
  · unfold readHeader
    simp only [hread', hreceived.opened, hop, hsize, lt_irrefl, if_false, Bool.false_eq_true]

/-! ## Frames that end the session -/

/-- An error, or the end of the connection. -/
def Ends (r : ℤ × State) : Prop := r.1 < 0 ∨ r.2.connectionClosed = true

theorem readStream_ends (h : Ends (readHeader s.resetReadBuff)) : Ends (readStream s) := by
  unfold readStream
  rcases hread : readHeader s.resetReadBuff with ⟨err, s'⟩
  rw [hread] at h
  dsimp only
  split_ifs with hneg hone herr
  · exact .inl (show (-1 : ℤ) < 0 by decide)
  · exact .inr (h.resolve_left hneg)
  · exact .inl (show (-1 : ℤ) < 0 by decide)
  · exact .inr (readNBytes_closed (h.resolve_left hneg) _)

theorem receiveCmd_ends (cmd : Command) (h : Ends (readStream s)) :
    (receiveCmd cmd s).1.1 < 0 ∨ (receiveCmd cmd s).2.connectionClosed = true := by
  unfold receiveCmd
  rcases hread : readStream s with ⟨err, s'⟩
  rw [hread] at h
  rcases hdecode : decodeRawStreamCmd cmd s' with ⟨err', cmd'⟩
  simp only [hdecode]
  split_ifs with hclosed hneg hone hneg'
  · exact .inr hclosed
  · exact .inl (show (-1 : ℤ) < 0 by decide)
  · exact .inr (h.resolve_left hneg)
  · exact .inl (show (-1 : ℤ) < 0 by decide)
  · exact .inr (h.resolve_left hneg)

theorem readCommand_ends (h : Ends (readStream s.newCommand.2)) : (readCommand s).1 = none := by
  have hrecv := receiveCmd_ends s.newCommand.1 h
  unfold readCommand
  rcases hr : receiveCmd s.newCommand.1 s.newCommand.2 with ⟨⟨err, cmd⟩, s'⟩
  rw [hr] at hrecv
  simp only [hr]
  split_ifs with hneg hclosed
  · rfl
  · rfl
  · rfl
  · exact absurd (hrecv.resolve_left hneg) hclosed

/-! ## Complete frames -/

/-- The connection is open, and the bytes that have not been read are `bs`. -/
structure Idle (s : State) (bs : List Byte) : Prop where
  flat : s.sock.flat = bs
  clean : s.sock.Clean
  opened : s.connectionClosed = false

theorem Idle.reset {bs : List Byte} (h : Idle s bs) : Received s.resetReadBuff [] bs :=
  ⟨Memory.Starts.nil _, rfl, h.flat, h.clean, h.opened⟩

theorem Received.idle {bs : List Byte} (h : Received s bs rest) : Idle s rest :=
  ⟨h.flat, h.clean, h.opened⟩

/-- Data frames go on, and all others end the session. -/
theorem checkOpcode_data : ∀ opcode : BitVec 4,
    if opcode = 1 ∨ opcode = 2 then checkOpcode (opcode.setWidth 8) = 0
    else checkOpcode (opcode.setWidth 8) < 0 ∨ checkOpcode (opcode.setWidth 8) = 1 := by
  decide

theorem readHeader_ends_of_opcode (h : Received s [] (f.head.take 6 ++ rest))
    (hop : ¬ (f.opcode = 1 ∨ f.opcode = 2)) : Ends (readHeader s) := by
  obtain ⟨s', -, -, -, -, -, hread⟩ := readHeader_eq h
  have hcheck := checkOpcode_data f.opcode
  rw [if_neg hop] at hcheck
  rw [hread]
  split_ifs with hneg hone
  · exact .inl (show (-1 : ℤ) < 0 by decide)
  · exact .inr rfl
  · exact absurd (hcheck.resolve_left hneg) hone

/-- With the header of a data frame ahead, all its fields are found. -/
theorem readHeader_complete (h : Received s [] (f.head ++ rest))
    (hop : f.opcode = 1 ∨ f.opcode = 2) :
    ∃ s', readHeader s = (if f.payload.length > websockReadStrLen - 56 then -1 else 0, s') ∧
      Received s' f.head rest ∧ s'.header = f.header ∧ s'.stale = s.stale := by
  rw [← List.take_append_drop 6 f.head, List.append_assoc] at h
  obtain ⟨s₁, hreceived₁, hstale₁, hfin, hmasked, hopcode, hread⟩ := readHeader_eq h
  have hcheck := checkOpcode_data f.opcode
  rw [if_pos hop] at hcheck
  rw [hcheck, if_neg (lt_irrefl 0), if_neg zero_ne_one] at hread
  obtain ⟨s₂, hsize, hreceived₂, hheader₂, hstale₂⟩ := readPayloadSize_complete hreceived₁
  rw [setPayloadSize_eq, hheader₂, hfin, hmasked, hopcode] at hsize
  refine ⟨{ s₂ with header := f.header }, ?_, ?_, rfl, hstale₂.trans hstale₁⟩
  · rw [hread, hsize]
    simp only [gt_iff_lt, Nat.cast_lt]
    rfl
  · exact ⟨hreceived₂.starts, hreceived₂.length, hreceived₂.flat, hreceived₂.clean,
      hreceived₂.opened⟩

theorem readStream_complete (h : Idle s (f.encode ++ rest)) (hop : f.opcode = 1 ∨ f.opcode = 2)
    (hfits : f.payload.length ≤ websockReadStrLen - 56) (hne : 0 < f.payload.length) :
    ∃ s', readStream s =
        (if f.form.headerSize + f.payload.length = koheronReadStrLen then -1 else 0, s') ∧
      Received s' f.encode rest ∧ s'.header = f.header ∧ s'.stale = s.stale := by
  have hreset := h.reset
  rw [Frame.encode, List.append_assoc] at hreset
  obtain ⟨s₁, hread₁, hreceived₁, hheader₁, hstale₁⟩ := readHeader_complete hreset hop
  rw [if_neg hfits.not_gt] at hread₁
  obtain ⟨s₂, hread₂, hreceived₂, hheader₂, hstale₂⟩ :=
    readNBytes_received hreceived₁ (by rwa [f.length_maskedPayload])
  rw [f.length_maskedPayload, f.length_head] at hread₂
  have hsize : s₁.header.payloadSize = f.payload.length := congrArg Header.payloadSize hheader₁
  refine ⟨s₂, ?_, hreceived₂, hheader₂.trans hheader₁, hstale₂.trans hstale₁⟩
  unfold readStream
  simp only [hread₁, hsize, hread₂, lt_irrefl, if_false, zero_ne_one]
  by_cases hfull : f.form.headerSize + f.payload.length = koheronReadStrLen
  · rw [if_pos hfull, if_pos (by decide)]
  · rw [if_neg hfull, if_neg (by decide)]

theorem xor_xor_self (a b : Byte) : a ^^^ b ^^^ b = a := by
  rw [BitVec.xor_assoc, BitVec.xor_self, BitVec.xor_zero]

/-- Once a frame has been read, what is unmasked is its payload. -/
theorem unmasked_starts (h : Received s f.encode rest) (hheader : s.header = f.header) :
    s.unmasked.Starts f.payload := by
  have hstarts := h.starts
  rw [Frame.encode] at hstarts
  obtain ⟨hhead, hpayload⟩ := Memory.starts_append.mp hstarts
  have hmask : (s.readStr.drop f.form.maskOffset).Starts (List.ofFn f.mask) := by
    rw [Frame.head] at hhead
    have hdrop := (Memory.starts_append.mp hhead).2
    have hlen : ([f.first, f.second] ++ f.form.extended f.payload.length).length =
        f.form.maskOffset := by
      cases f.form <;> rfl
    rwa [hlen] at hdrop
  rw [f.length_head, Memory.starts_iff] at hpayload
  rw [Memory.starts_iff] at hmask ⊢
  intro i hi
  have hbyte := hpayload i (by rwa [f.length_maskedPayload])
  have hkey := hmask (i % 4) (by simpa using Nat.mod_lt i (by decide))
  have hoffset : f.form.maskOffset + 4 = f.form.headerSize := by cases f.form <;> rfl
  rw [Memory.drop_apply] at hbyte hkey
  rw [State.unmasked, hheader]
  show s.readStr (f.form.maskOffset + 4 + i) ^^^ s.readStr (f.form.maskOffset + i % 4) = _
  rw [hoffset, hbyte, hkey]
  simp only [Frame.maskedPayload, Frame.maskAt, List.getElem_mapIdx, List.getElem_ofFn]
  exact xor_xor_self _ _

/-- The command of a frame, in the storage that it finds. -/
def Frame.command (f : Frame) (stale : Memory × Memory) : Command :=
  ⟨stale.1.write (f.payload.take headerSize), ⟨stale.2.write (f.payload.drop headerSize), 0⟩⟩

theorem decodeRawStreamCmd_complete (h : Received s f.encode rest) (hheader : s.header = f.header)
    (hlarge : headerSize ≤ f.payload.length) (stale : Memory × Memory) :
    decodeRawStreamCmd ⟨stale.1, ⟨stale.2, 0⟩⟩ s = (0, f.command stale) := by
  have hunmasked := Memory.starts_iff.mp (unmasked_starts h hheader)
  have hlen : ¬ s.readStrLen < s.header.headerSize + 1 := by
    rw [h.length, Frame.encode, List.length_append, f.length_head, f.length_maskedPayload, hheader]
    show ¬ f.form.headerSize + f.payload.length < f.form.headerSize + 1
    have hpos : 0 < headerSize := by decide
    omega
  have hsize : s.header.payloadSize = f.payload.length := congrArg Header.payloadSize hheader
  rw [decodeRawStreamCmd, if_neg hlen, Frame.command, hsize]
  have hcmdHeader : (fun i => if i < headerSize then s.unmasked i else stale.1 i) =
      stale.1.write (f.payload.take headerSize) := by
    have htake : (f.payload.take headerSize).length = headerSize := List.length_take_of_le hlarge
    funext i
    rcases lt_or_ge i headerSize with hi | hi
    · rw [if_pos hi, hunmasked i (hi.trans_le hlarge),
        Memory.write_apply_of_lt _ (by rwa [htake]), List.getElem_take]
    · rw [if_neg hi.not_gt, Memory.write_apply_of_le _ (by rwa [htake])]
  have hdata : (fun i => if ((headerSize + i : ℕ) : ℤ) < f.payload.length then
      s.unmasked (headerSize + i) else stale.2 i) = stale.2.write (f.payload.drop headerSize) := by
    have hdrop : (f.payload.drop headerSize).length = f.payload.length - headerSize :=
      List.length_drop
    funext i
    rcases lt_or_ge (headerSize + i) f.payload.length with hi | hi
    · rw [if_pos (by omega), hunmasked _ hi, Memory.write_apply_of_lt _ (by omega),
        List.getElem_drop]
    · rw [if_neg (by omega), Memory.write_apply_of_le _ (by omega)]
  simp only [hcmdHeader, hdata]

/-- A frame is received, unless it fills the buffer to the length of another one. -/
theorem receiveCmd_complete (h : Idle s (f.encode ++ rest)) (hop : f.opcode = 1 ∨ f.opcode = 2)
    (hlarge : headerSize ≤ f.payload.length) (hfits : f.payload.length ≤ websockReadStrLen - 56)
    (hfull : f.form.headerSize + f.payload.length ≠ koheronReadStrLen)
    (stale : Memory × Memory) :
    ∃ s', receiveCmd ⟨stale.1, ⟨stale.2, 0⟩⟩ s = (((f.payload.length : ℤ), f.command stale), s') ∧
      Idle s' rest ∧ s'.header = f.header ∧ s'.stale = s.stale := by
  have hpos : 0 < f.payload.length := lt_of_lt_of_le (by decide) hlarge
  obtain ⟨s', hread, hreceived, hheader, hstale⟩ := readStream_complete h hop hfits hpos
  rw [if_neg hfull] at hread
  have hdecode := decodeRawStreamCmd_complete hreceived hheader hlarge stale
  have hsize : toInt32 s'.header.payloadSize = f.payload.length := by
    rw [hheader]
    apply toInt32_of_lt
    exact lt_of_le_of_lt hfits (by decide)
  refine ⟨s', ?_, hreceived.idle, hheader, hstale⟩
  unfold receiveCmd
  simp only [h.opened, hread, hdecode, hsize, lt_irrefl, if_false, Bool.false_eq_true, zero_ne_one]

theorem readCommand_accepted (h : Idle s (f.encode ++ rest)) (hf : f.Accepted) :
    ∃ s', readCommand s = (some (f.command (s.stale 0)), s') ∧ Idle s' rest ∧
      s'.header = f.header ∧ s'.stale = fun i => s.stale (i + 1) := by
  have hnew : Idle s.newCommand.2 (f.encode ++ rest) := ⟨h.flat, h.clean, h.opened⟩
  obtain ⟨s', hrecv, hidle, hheader, hstale⟩ :=
    receiveCmd_complete hnew hf.opcode hf.large hf.fits hf.full (s.stale 0)
  refine ⟨s', ?_, hidle, hheader, hstale⟩
  have hrecv' : receiveCmd s.newCommand.1 s.newCommand.2 =
      (((f.payload.length : ℤ), f.command (s.stale 0)), s') := hrecv
  have hsize : ¬ s'.header.payloadSize < headerSize := by
    rw [hheader]
    exact not_lt.mpr (Int.ofNat_le.mpr hf.large)
  unfold readCommand
  simp only [hrecv', hidle.opened, if_neg hsize, if_false, Bool.false_eq_true]
  rw [if_neg (Int.natCast_nonneg _).not_gt]

theorem readNBytes_header (n : ℤ) (s : State) : (readNBytes n s).2.header = s.header := by
  unfold readNBytes
  split <;> rfl

theorem readStream_header (s : State) :
    (readStream s).2.header = (readHeader s.resetReadBuff).2.header := by
  unfold readStream
  dsimp only
  split_ifs
  · rfl
  · rfl
  · exact readNBytes_header _ _
  · exact readNBytes_header _ _

theorem receiveCmd_header (cmd : Command) (h : s.connectionClosed = false) :
    (receiveCmd cmd s).2.header = (readStream s).2.header := by
  unfold receiveCmd
  rw [h]
  rcases hdecode : decodeRawStreamCmd cmd (readStream s).2 with ⟨err, cmd'⟩
  simp only [hdecode, Bool.false_eq_true, if_false]
  split_ifs <;> rfl

/-- A payload that is smaller than the header of a command. -/
theorem readCommand_small (h : s.connectionClosed = false)
    (hsmall : (readStream s.newCommand.2).2.header.payloadSize < headerSize) :
    (readCommand s).1 = none := by
  rw [← @receiveCmd_header s.newCommand.2 s.newCommand.1 h] at hsmall
  unfold readCommand
  rcases hr : receiveCmd s.newCommand.1 s.newCommand.2 with ⟨⟨err, cmd⟩, s'⟩
  rw [hr] at hsmall
  simp only [hr, if_pos hsmall]
  split_ifs <;> rfl

/-- Any other frame ends the session. -/
theorem readCommand_refused (h : Idle s (f.encode ++ rest)) (hf : ¬ f.Accepted) :
    (readCommand s).1 = none := by
  have hnew : Idle s.newCommand.2 (f.encode ++ rest) := ⟨h.flat, h.clean, h.opened⟩
  have hreset := hnew.reset
  rw [Frame.encode, List.append_assoc] at hreset
  by_cases hop : f.opcode = 1 ∨ f.opcode = 2
  · obtain ⟨s₁, hread₁, -, hheader₁, -⟩ := readHeader_complete hreset hop
    rcases lt_or_ge (websockReadStrLen - 56) f.payload.length with hlong | hfits
    · apply readCommand_ends
      apply readStream_ends
      rw [hread₁, if_pos hlong]
      exact .inl (show (-1 : ℤ) < 0 by decide)
    · rcases lt_or_ge f.payload.length headerSize with hsmall | hlarge
      · apply readCommand_small h.opened
        rw [readStream_header, hread₁, hheader₁]
        exact Int.ofNat_lt.mpr hsmall
      · have hfull : f.form.headerSize + f.payload.length = koheronReadStrLen := by
          by_contra hne
          exact hf ⟨hop, hlarge, hfits, hne⟩
        obtain ⟨s₂, hread₂, -⟩ :=
          readStream_complete hnew hop hfits (lt_of_lt_of_le (by decide) hlarge)
        apply readCommand_ends
        rw [hread₂, if_pos hfull]
        exact .inl (show (-1 : ℤ) < 0 by decide)
  · apply readCommand_ends
    apply readStream_ends
    rw [← List.take_append_drop 6 f.head, List.append_assoc] at hreset
    exact readHeader_ends_of_opcode hreset hop

/-! ## Frames that are cut off -/

/-- The peer closes before it has sent the whole frame. -/
def Cut (part : List Byte) : Prop :=
  ∃ f : Frame, part <+: f.encode ∧ part.length < f.encode.length

theorem cut_nil (f : Frame) : Cut [] := by
  refine ⟨f, List.nil_prefix, ?_⟩
  rw [Frame.encode, List.length_append, f.length_head]
  cases f.form <;> exact Nat.lt_add_right _ (by decide)

theorem readPayloadSize_cut {bs : List Byte} (h : Received s bs rest)
    (hlt : 6 + rest.length < f.form.headerSize) :
    Ends (readPayloadSize (f.form.code f.payload.length).toNat s) := by
  cases hform : f.form with
  | small =>
    rw [hform] at hlt
    exact absurd hlt (Nat.le_add_right 6 _).not_gt
  | medium =>
    have hrest : rest.length < 2 := by
      rw [hform] at hlt
      exact Nat.lt_of_add_lt_add_left hlt
    obtain ⟨s', hread, hclosed⟩ := readNBytes_cut h hrest
    have hcode : (Form.medium.code f.payload.length).toNat = mediumStream := rfl
    rw [hcode, readPayloadSize, if_neg (by decide), if_pos rfl]
    have hread' : readNBytes 2 s = (1, s') := hread
    simp only [hread', hclosed, if_true]
    exact .inr hclosed
  | big =>
    have hrest : rest.length < 8 := by
      rw [hform] at hlt
      exact Nat.lt_of_add_lt_add_left hlt
    obtain ⟨s', hread, hclosed⟩ := readNBytes_cut h hrest
    have hcode : (Form.big.code f.payload.length).toNat = bigStream := rfl
    rw [hcode, readPayloadSize, if_neg (by decide), if_neg (by decide), if_pos rfl]
    have hread' : readNBytes 8 s = (1, s') := hread
    simp only [hread', hclosed, if_true]
    exact .inr hclosed

theorem readHeader_cut {bs : List Byte} (h : Received s bs rest) (hlt : rest.length < 6) :
    Ends (readHeader s) := by
  obtain ⟨s', hread, hclosed⟩ := readNBytes_cut h hlt
  have hread' : readNBytes 6 s = (1, s') := hread
  unfold readHeader
  simp only [hread', hclosed, if_true]
  exact .inr hclosed

theorem readStream_cut {part : List Byte} (h : Idle s part) (hcut : Cut part) :
    Ends (readStream s) := by
  obtain ⟨f, hpre, hlt⟩ := hcut
  have hreset := h.reset
  have hhead := f.length_head
  have hsix : 6 ≤ f.form.headerSize := by cases f.form <;> decide
  have htake : (f.head.take 6).length = 6 := by
    rw [List.length_take]
    omega
  have hheadPre : f.head <+: f.encode := List.prefix_append _ _
  rcases lt_or_ge part.length 6 with hshort | hlong
  · exact readStream_ends (readHeader_cut hreset hshort)
  · obtain ⟨rest, rfl⟩ : f.head.take 6 <+: part :=
      List.prefix_of_prefix_length_le ((List.take_prefix 6 _).trans hheadPre) hpre (by omega)
    by_cases hop : f.opcode = 1 ∨ f.opcode = 2
    · rcases lt_or_ge (f.head.take 6 ++ rest).length f.form.headerSize with hin | hout
      · apply readStream_ends
        obtain ⟨s', hreceived, -, -, -, -, hread⟩ := readHeader_eq hreset
        have hcheck := checkOpcode_data f.opcode
        rw [if_pos hop] at hcheck
        rw [hread, hcheck, if_neg (lt_irrefl 0), if_neg zero_ne_one]
        rw [List.length_append, htake] at hin
        exact readPayloadSize_cut hreceived hin
      · obtain ⟨body, hbody⟩ : f.head <+: f.head.take 6 ++ rest :=
          List.prefix_of_prefix_length_le hheadPre hpre (by omega)
        rw [← hbody] at hreset hlt
        obtain ⟨s', hread, hreceived, hheader, -⟩ := readHeader_complete hreset hop
        rcases lt_or_ge (websockReadStrLen - 56) f.payload.length with hlarge | hfits
        · apply readStream_ends
          rw [hread, if_pos hlarge]
          exact .inl (show (-1 : ℤ) < 0 by decide)
        · rw [if_neg hfits.not_gt] at hread
          rw [Frame.encode, List.length_append, List.length_append, f.length_maskedPayload] at hlt
          have hsize : s'.header.payloadSize = f.payload.length :=
            congrArg Header.payloadSize hheader
          obtain ⟨s'', hread', hclosed⟩ :=
            readNBytes_cut hreceived (Nat.lt_of_add_lt_add_left hlt)
          unfold readStream
          simp only [hread, hsize, hread', lt_irrefl, if_false, zero_ne_one]
          exact .inr hclosed
    · exact readStream_ends (readHeader_ends_of_opcode hreset hop)

/-- No command is taken out of a frame that is cut off. -/
theorem readCommand_cut {part : List Byte} (h : Idle s part) (hcut : Cut part) :
    (readCommand s).1 = none :=
  readCommand_ends (readStream_cut ⟨h.flat, h.clean, h.opened⟩ hcut)

end Frame

/-! ## Which frames are received -/

/-- The command of the frame, with the number of bytes that is returned. -/
structure Frame.ReceivedAs (f : Frame) (result : ℤ × Command) : Prop where
  size : result.1 = f.payload.length
  header : result.2.header.Starts (f.payload.take headerSize)
  payload : result.2.payload.begin.Starts (f.payload.drop headerSize)

theorem Frame.command_receivedAs (f : Frame) (stale : Memory × Memory) :
    f.ReceivedAs (f.payload.length, f.command stale) := by
  refine ⟨rfl, Memory.write_starts _ _, ?_⟩
  show (((f.command stale).payload.data).drop 0).Starts _
  rw [Memory.drop_zero]
  exact Memory.write_starts _ _

/-- A frame that fills the buffer to the length of another one is lost. -/
theorem receiveCmd_full {f : Frame} {s : State} {rest : List Byte}
    (h : Idle s (f.encode ++ rest)) (hop : f.opcode = 1 ∨ f.opcode = 2)
    (hlarge : headerSize ≤ f.payload.length) (hfits : f.payload.length ≤ websockReadStrLen - 56)
    (hfull : f.form.headerSize + f.payload.length = koheronReadStrLen) (cmd : Command) :
    (receiveCmd cmd s).1.1 = -1 := by
  have hpos : 0 < f.payload.length := lt_of_lt_of_le (by decide) hlarge
  obtain ⟨s', hread, -⟩ := readStream_complete h hop hfits hpos
  rw [if_pos hfull] at hread
  have hneg : (-1 : ℤ) < 0 := by decide
  unfold receiveCmd
  simp only [h.opened, hread, hneg, if_true, if_false, Bool.false_eq_true]

/-- A frame of a command is received, however it is split up, just when it does
not fill the buffer to the length of another one. -/
theorem receivedAs_iff {f : Frame} {s : State} {rest : List Byte}
    (h : Idle s (f.encode ++ rest)) (hop : f.opcode = 1 ∨ f.opcode = 2)
    (hlarge : headerSize ≤ f.payload.length) (hfits : f.payload.length ≤ websockReadStrLen - 56)
    (stale : Memory × Memory) :
    f.ReceivedAs (receiveCmd ⟨stale.1, ⟨stale.2, 0⟩⟩ s).1 ↔
      f.form.headerSize + f.payload.length ≠ koheronReadStrLen := by
  constructor
  · intro hreceived hfull
    have hsize := hreceived.size
    rw [receiveCmd_full h hop hlarge hfits hfull] at hsize
    omega
  · intro hfull
    obtain ⟨s', hrecv, -⟩ := receiveCmd_complete h hop hlarge hfits hfull stale
    rw [hrecv]
    exact f.command_receivedAs stale

/-! ## Two frames -/

/-- A connection on which these frames arrive, byte by byte. -/
def arriving (frames : List Frame) : State where
  sock := Socket.bytewise (frames.flatMap Frame.encode)
  readStr := fun _ => 0
  readStrLen := 0
  header := ⟨0, 0, 0, false, false, 0⟩
  connectionClosed := false
  stale := fun _ => (fun _ => 0xaa, fun _ => 0xaa)

theorem idle_arriving (frames : List Frame) :
    Idle (arriving frames) (frames.flatMap Frame.encode) :=
  ⟨Socket.flat_bytewise _, Socket.clean_bytewise _, rfl⟩

/-- A frame in the second form, with this many bytes of payload. -/
def mediumFrame (n : ℕ) (hlt : n < 2 ^ 16) : Frame where
  fin := true
  rsv := 0
  opcode := 2
  form := .medium
  mask := fun i => BitVec.ofNat 8 (3 + i)
  payload := List.replicate n 7
  carries := by rwa [List.length_replicate]

theorem idle_mediumFrame (n : ℕ) (hlt : n < 2 ^ 16) :
    Idle (arriving [mediumFrame n hlt]) ((mediumFrame n hlt).encode ++ []) := by
  have h := idle_arriving [mediumFrame n hlt]
  rwa [List.flatMap_cons, List.flatMap_nil] at h

theorem nine_receivedAs :
    (mediumFrame 9 (by decide)).ReceivedAs
      (receiveCmd ⟨fun _ => 0, ⟨fun _ => 0, 0⟩⟩ (arriving [mediumFrame 9 (by decide)])).1 :=
  (receivedAs_iff (idle_mediumFrame 9 (by decide)) (.inr rfl) (by decide) (by decide)
    (fun _ => 0, fun _ => 0)).mpr (by decide)

/-- With its eight bytes of header this frame has as many bytes as the other
buffer, and no command comes of it. -/
theorem full_not_receivedAs :
    headerSize ≤ (mediumFrame 16376 (by decide)).payload.length ∧
      (mediumFrame 16376 (by decide)).payload.length ≤ websockReadStrLen - 56 ∧
      ¬ (mediumFrame 16376 (by decide)).ReceivedAs
        (receiveCmd ⟨fun _ => 0, ⟨fun _ => 0, 0⟩⟩
          (arriving [mediumFrame 16376 (by decide)])).1 := by
  have hlen : (mediumFrame 16376 (by decide)).payload.length = 16376 := List.length_replicate
  have hlarge : headerSize ≤ (mediumFrame 16376 (by decide)).payload.length := by
    rw [hlen]
    decide
  have hfits : (mediumFrame 16376 (by decide)).payload.length ≤ websockReadStrLen - 56 := by
    rw [hlen]
    decide
  refine ⟨hlarge, hfits, ?_⟩
  intro hreceived
  have hsize := hreceived.size
  rw [receiveCmd_full (idle_mediumFrame 16376 (by decide)) (.inr rfl) hlarge hfits
    (by rw [hlen]; rfl), hlen] at hsize
  omega

end Koheron.WebSocket
