-- SUMMARY: A WebSocket session from its upgrade request to its last frame: the accept value of the standard, and the calls of the commands in their order.
import FpgaAcoustic.Client.CppClient
import FpgaAcoustic.Server.Handshake
import FpgaAcoustic.Server.Sha1
import FpgaAcoustic.Server.ShortFrame

/-!
# Whole sessions

The client asks for the upgrade, is answered with the digest of its key, and
sends a command in each frame. The session goes on up to the first frame that it
does not accept, or up to a frame that is cut off.
-/

namespace Koheron.WebSocket

open Bytes

/-! ## run -/

/-- `run`, with so many passes of its loop: what `init_session` sends, and the
calls of the loop. -/
def run (table : Table) (writes : ℕ → ℤ) (passes : ℕ) (s : State) :
    Option (List Byte × List Invocation) := do
  let (ret, wire, s) ← authenticate Sha1.md writes s
  if ret < 0 then pure (wire, []) else pure (wire, rounds table passes s)

/-! ## Specification -/

/-- The accept value for a key. -/
def accept (key : List Byte) : List Byte := Base64.encode (Sha1.digest (key ++ wsMagic))

/-- A call that a client makes, and the frame that carries it. -/
structure Message (table : Table) where
  call : Call
  frame : Frame
  known : table call.driver call.operation = some (call.args.map Value.type)
  payload : frame.payload =
    commandHeader CppClient.reserved call.driver call.operation ++ call.args.flatMap Value.wire
  accepted : frame.Accepted

/-- Where a session ends: a frame that is refused, or a part of one. -/
def Ending (bytes : List Byte) : Prop :=
  (∃ f rest, ¬ f.Accepted ∧ bytes = Frame.encode f ++ rest) ∨ Cut bytes

/-! ## Frames -/

section Frames

variable {table : Table} {s s' : State} {bytes : List Byte}

/-- The frame of a message is a call of its operation, whatever the buffers held. -/
theorem Message.dispatch (m : Message table) (stale : Memory × Memory) :
    (dispatch table (m.frame.command stale) m.frame.header).map Invocation.call = some m.call := by
  have hlen := length_commandHeader CppClient.length_reserved m.call.driver m.call.operation
  have hheader : (m.frame.command stale).header.Starts
      (commandHeader CppClient.reserved m.call.driver m.call.operation) := by
    rw [Frame.command, m.payload, ← hlen, List.take_left]
    exact Memory.write_starts _ _
  have hdata : (stale.2.write (m.frame.payload.drop headerSize)).Starts
      (m.call.args.flatMap Value.wire) := by
    rw [m.payload, ← hlen, List.drop_left]
    exact Memory.write_starts _ _
  have hfits : (m.call.args.flatMap Value.wire).length ≤ cmdPayloadBufferLen := by
    have hpayload := m.accepted.fits
    rw [m.payload, List.length_append] at hpayload
    exact (Nat.le_add_left _ _).trans (hpayload.trans (Nat.sub_le _ _))
  obtain ⟨b, hexecute, -⟩ := CppClient.execute_payload m.known hheader hdata hfits
  rw [WebSocket.dispatch, Frame.command]
  rw [Frame.command] at hexecute
  simp only [hexecute]
  rfl

theorem readCommand_ending (h : Idle s bytes) (hending : Ending bytes) :
    (readCommand s).1 = none := by
  rcases hending with ⟨f, rest, hf, rfl⟩ | hcut
  · exact readCommand_refused h hf
  · exact readCommand_cut h hcut

/-- Each pass executes the call of the next frame, up to the ending. -/
theorem rounds_messages {messages : List (Message table)}
    (h : Idle s (messages.flatMap (fun m => m.frame.encode) ++ bytes)) (hending : Ending bytes)
    (passes : ℕ) :
    (rounds table passes s).map Invocation.call =
      (messages.take passes).map Message.call := by
  induction passes generalizing messages s with
  | zero => rfl
  | succ passes ih =>
    cases messages with
    | nil =>
      have hnone : readCommand s = (none, (readCommand s).2) :=
        Prod.ext (readCommand_ending h hending) rfl
      rw [rounds, hnone]
      rfl
    | cons m messages =>
      rw [List.flatMap_cons, List.append_assoc] at h
      obtain ⟨s', hread, hidle, hheader, -⟩ := readCommand_accepted h m.accepted
      have hcall := m.dispatch (s.stale 0)
      obtain ⟨inv, hinv, hcall⟩ := Option.map_eq_some_iff.mp hcall
      rw [rounds, hread]
      dsimp only
      rw [hheader, hinv, List.map_append, ih hidle, List.take_succ_cons, List.map_cons, ← hcall]
      rfl

end Frames

/-! ## Sessions -/

theorem acceptValue_md (key : List Byte) : acceptValue Sha1.md key = accept key := by
  rw [acceptValue, Sha1.ofFn_md, accept]

/-- The operation of `sevenFrame`, called once. -/
def sevenMessage : Message oneNumber where
  call := ⟨2, 0, [.scalar ⟨.uint32, 7⟩]⟩
  frame := sevenFrame
  known := by decide
  payload := by decide
  accepted := by decide

/-- A close frame without a status. -/
def closeFrame : Frame where
  fin := true
  rsv := 0
  opcode := 8
  form := .small
  mask := fun i => BitVec.ofNat 8 (3 + i)
  payload := []
  carries := Nat.zero_le 125

/-- The request, two commands and a close frame. -/
def visit : Socket :=
  .data 0x47 sample.text.tail ::
    Socket.bytewise (sevenFrame.encode ++ sevenFrame.encode ++ closeFrame.encode)

end Koheron.WebSocket
