-- SUMMARY: The WebSocket session: how it reads a frame, decodes its header and its payload, and executes the commands that it finds.
import FpgaAcoustic.Bytes.Stream
import FpgaAcoustic.Server.Payload

/-!
# WebSocket sessions

The bytes of a frame are read into one buffer, the header in two steps whose
sizes do not depend on where the mask begins. The payload is unmasked into the
two buffers of a command, which keep what they held where it does not reach.
-/

namespace Koheron

open Bytes

namespace WebSocket

/-- `KOHERON_READ_STR_LEN`. -/
def koheronReadStrLen : ℕ := 16384

/-- `WEBSOCK_READ_STR_LEN`. -/
def websockReadStrLen : ℕ := 16384 * 16

/-! ## Opcodes and header forms -/

/-- `TEXT_FRAME`. -/
def textFrame : Byte := 0x1

/-- `BINARY_FRAME`. -/
def binaryFrame : Byte := 0x2

/-- `CONNECTION_CLOSE`. -/
def connectionClose : Byte := 0x8

/-- `check_opcode`. Continuation frames, pings and pongs are not supported. -/
def checkOpcode (opcode : Byte) : ℤ :=
  if opcode = textFrame ∨ opcode = binaryFrame then 0
  else if opcode = connectionClose then 1
  else -1

/-- `SMALL_STREAM`, and the codes of the two longer forms. -/
def smallStream : ℕ := 125

/-- `MEDIUM_STREAM`. -/
def mediumStream : ℕ := 126

/-- `BIG_STREAM`. -/
def bigStream : ℕ := 127

/-- The forms in which a header gives the size of the payload. -/
inductive Form
  | small
  | medium
  | big
  deriving DecidableEq, Repr

/-- `HeaderSize`. -/
def Form.headerSize : Form → ℕ
  | small => 6
  | medium => 8
  | big => 14

/-- `MaskOffset`. -/
def Form.maskOffset : Form → ℕ
  | small => 2
  | medium => 4
  | big => 10

/-! ## The state -/

structure Header where
  headerSize : ℕ
  maskOffset : ℕ
  payloadSize : ℤ
  fin : Bool
  masked : Bool
  opcode : Byte

structure State where
  sock : Socket
  readStr : Memory
  readStrLen : ℕ
  header : Header
  connectionClosed : Bool
  /-- What the header and the payload of the coming commands hold at first. -/
  stale : ℕ → Memory × Memory

/-- The header of a command, and its payload with the cursor. -/
structure Command where
  header : Memory
  payload : Buffer

/-- `Command cmd`, in the storage that it finds. -/
def State.newCommand (s : State) : Command × State :=
  (⟨(s.stale 0).1, ⟨(s.stale 0).2, 0⟩⟩, { s with stale := fun i => s.stale (i + 1) })

/-- `reset_read_buff`. -/
def State.resetReadBuff (s : State) : State :=
  { s with readStr := fun i => if i < s.readStrLen then 0 else s.readStr i, readStrLen := 0 }

/-! ## Reading -/

/-- The loops of `read_n_bytes`, with `remaining` bytes to come into a buffer
that holds `len`: what is returned, and the bytes that have come. A failed read
ends the inner loop only, and is tried again. -/
def readLoop : ℕ → ℕ → Socket → ℤ × List Byte × Socket
  | len, 0, sock => (if len = koheronReadStrLen then -1 else 0, [], sock)
  | _, _ + 1, [] => (1, [], [])
  | len, remaining + 1, .error :: sock =>
    if len = koheronReadStrLen then (-1, [], sock) else readLoop len (remaining + 1) sock
  | len, remaining + 1, .data b bs :: sock =>
    if (b :: bs).length ≤ remaining + 1 then
      let r := readLoop (len + (b :: bs).length) (remaining + 1 - (b :: bs).length) sock
      (r.1, b :: bs ++ r.2.1, r.2.2)
    else
      let ret := if len + (remaining + 1) = koheronReadStrLen then -1 else 0
      match (b :: bs).drop (remaining + 1) with
      | [] => (ret, b :: bs, sock)
      | c :: cs => (ret, (b :: bs).take (remaining + 1), .data c cs :: sock)

/-- `read_n_bytes`, whose two arguments are the same in every call. -/
def readNBytes (bytes : ℤ) (s : State) : ℤ × State :=
  if bytes ≤ 0 then (0, s)
  else
    let r := readLoop s.readStrLen bytes.toNat s.sock
    (r.1, { s with
      sock := r.2.2
      readStr := s.readStr.writeAt s.readStrLen r.2.1
      readStrLen := s.readStrLen + r.2.1.length
      connectionClosed := s.connectionClosed || r.1 == 1 })

/-- The header with a size of the payload, which is checked. -/
def setPayloadSize (form : Form) (payloadSize : ℤ) (s : State) : ℤ × State :=
  let s := { s with header := { s.header with
    headerSize := form.headerSize, payloadSize, maskOffset := form.maskOffset } }
  if payloadSize > (websockReadStrLen - 56 : ℕ) then (-1, s) else (0, s)

/-- The part of `read_header` that depends on the form. -/
def readPayloadSize (streamSize : ℕ) (s : State) : ℤ × State :=
  if streamSize ≤ smallStream then setPayloadSize .small streamSize s
  else if streamSize = mediumStream then
    let (err, s) := readNBytes 2 s
    if err < 0 then (-1, s)
    else if s.connectionClosed then (0, s)
    else setPayloadSize .medium (extract16 (s.readStr.drop 2)).toNat s
  else if streamSize = bigStream then
    let (err, s) := readNBytes 8 s
    if err < 0 then (-1, s)
    else if s.connectionClosed then (0, s)
    else setPayloadSize .big (extract64 (s.readStr.drop 2)).toInt s
  else (-1, s)

def readHeader (s : State) : ℤ × State :=
  let (err, s) := readNBytes 6 s
  if err < 0 then (-1, s)
  else if s.connectionClosed then (0, s)
  else
    let opcode := s.readStr 0 &&& 0x0f
    let s := { s with header := { s.header with
      fin := s.readStr 0 &&& 0x80 != 0, masked := s.readStr 1 &&& 0x80 != 0, opcode } }
    let opcodeErr := checkOpcode opcode
    if opcodeErr < 0 then (-1, s)
    else if opcodeErr = 1 then (opcodeErr, { s with connectionClosed := true })
    else readPayloadSize (s.readStr 1 &&& 0x7f).toNat s

def readStream (s : State) : ℤ × State :=
  let (readHeadErr, s) := readHeader s.resetReadBuff
  if readHeadErr < 0 then (-1, s)
  else if readHeadErr = 1 then (readHeadErr, s)
  else
    let (err, s) := readNBytes s.header.payloadSize s
    if err < 0 then (-1, s) else (err, s)

/-! ## Commands -/

/-- `payload_ptr[i] ^ mask[i % 4]`. -/
def State.unmasked (s : State) : Memory := fun i =>
  s.readStr (s.header.maskOffset + 4 + i) ^^^ s.readStr (s.header.maskOffset + i % 4)

def decodeRawStreamCmd (cmd : Command) (s : State) : ℤ × Command :=
  if s.readStrLen < s.header.headerSize + 1 then (-1, cmd)
  else
    let header : Memory := fun i => if i < headerSize then s.unmasked i else cmd.header i
    let data : Memory := fun i =>
      if ((headerSize + i : ℕ) : ℤ) < s.header.payloadSize then s.unmasked (headerSize + i)
      else cmd.payload.data i
    (0, { header, payload := { cmd.payload with data } })

def receiveCmd (cmd : Command) (s : State) : (ℤ × Command) × State :=
  if s.connectionClosed then ((0, cmd), s)
  else
    let (err, s) := readStream s
    if err < 0 then ((-1, cmd), s)
    else if err = 1 then ((0, cmd), s)
    else
      let (err, cmd) := decodeRawStreamCmd cmd s
      if err < 0 then ((-1, cmd), s) else ((toInt32 s.header.payloadSize, cmd), s)

/-- `read_command`: no command if the session is to end. -/
def readCommand : Parser State Command := fun s =>
  let (cmd, s) := s.newCommand
  let ((err, cmd), s) := receiveCmd cmd s
  if err < 0 then (none, s)
  else if s.connectionClosed then (none, s)
  else if s.header.payloadSize < headerSize then (none, s)
  else (some cmd, s)

/-- A call of a driver method, with the header of the frame and the cursor as
they are then. -/
structure Invocation where
  call : Call
  header : Header
  position : ℕ

/-- The execution of the command that a frame with this header has brought. -/
def dispatch (table : Table) (cmd : Command) (header : Header) : Option Invocation :=
  let (call, payload) := execute Buffer.session table (headerIds cmd.header) cmd.payload
  call.map fun call => ⟨call, header, payload.position⟩

/-- The first passes of the loop of `run`. A command that fails does not end it. -/
def rounds (table : Table) : ℕ → State → List Invocation
  | 0, _ => []
  | n + 1, s =>
    match readCommand s with
    | (none, _) => []
    | (some cmd, s) => (dispatch table cmd s.header).toList ++ rounds table n s

end WebSocket

end Koheron
