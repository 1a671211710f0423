-- SUMMARY: The sending side of the TCP session and of the two clients, and the calls that keep a connection framed.
import FpgaAcoustic.Bytes.Sender
import FpgaAcoustic.Server.Operation

/-!
# Sending

A session gives up its connection only where `write` returns zero, the C++
client only where `send` fails, and the Python client in both cases. None of
them sends the rest of a message of which a part was taken.
-/

namespace Koheron.Sending

open Bytes

/-! ## The TCP session -/

namespace Tcp

/-- `Session<TCP>::write` of `bytesSend` bytes, where `::write` returns `returned`. -/
def write (bytesSend : ℕ) (returned : ℤ) : ℤ :=
  let nBytesSend := toInt32 returned
  if nBytesSend = 0 then 0
  else if nBytesSend < 0 then -1
  else if nBytesSend ≠ toInt32 bytesSend then -1
  else toInt32 bytesSend

/-- The length of a message as an `unsigned int`. -/
def len (message : List Byte) : ℕ := message.length % 2 ^ 32

/-- `send`. The session is `CLOSED` where the link is stopped. -/
def send (a : Attempt) (s : Link) : ℤ × Link :=
  let bytesSend := write (len a.message) (a.outcome.returned (len a.message))
  let s := s.put a.message (a.outcome.taken (len a.message))
  (bytesSend, if bytesSend = 0 then { s with stopped := true } else s)

/-- What the execution of a command comes to: an error code, or a message. -/
inductive Execution
  | silent (err : ℤ)
  | reply (a : Attempt)

def execute : Execution → Link → ℤ × Link
  | .silent err, s => (err, s)
  | .reply a, s => send a s

/-- The loop of `run`, over the commands that `read_command` returns. A command
that fails is logged, and the status is tested after it. -/
def run : List Execution → Link → Link
  | [], s => s
  | cmd :: cmds, s =>
    let (_, s) := execute cmd s
    if s.stopped then s else run cmds s

end Tcp

/-! ## The clients -/

/-- An exception leaves the code that uses the connection. -/
def raise : Parser Link Unit := fun l => (none, { l with stopped := true })

/-- `KoheronClient::send`, which counts as an error only what is negative. -/
def CppClient.send (a : Attempt) : Parser Link Unit := fun l =>
  let err := toInt32 (a.outcome.returned a.message.length)
  let l := l.put a.message (a.outcome.taken a.message.length)
  if err < 0 then raise l else (some (), l)

/-- `send_command`. Where the call fails, `sock.send` raises an exception itself. -/
def PyClient.sendCommand (a : Attempt) : Parser Link Unit := fun l =>
  let l := l.put a.message (a.outcome.taken a.message.length)
  match a.outcome with
  | .error => raise l
  | .room n => if min n a.message.length = 0 then raise l else (some (), l)

/-- One message after the other, until an exception is raised. -/
def calls (send : Attempt → Parser Link Unit) : List Attempt → Parser Link Unit
  | [] => Parser.pure ()
  | a :: as => (send a).bind fun _ => calls send as

/-! ## As senders -/

theorem toInt32_eq_zero_iff {count : ℕ} (h : count < 2 ^ 32) (o : Outcome) :
    toInt32 (o.returned count) = 0 ↔ o.returned count = 0 := by
  unfold toInt32
  rw [Int.bmod_def]
  cases o with
  | room n =>
    simp only [Outcome.returned]
    omega
  | error =>
    simp only [Outcome.returned]
    omega

def Tcp.sender : Sender where
  count size := size % 2 ^ 32
  stops _ returned := returned = 0
  count_le size := Nat.mod_le size _

def CppClient.sender : Sender where
  count := id
  stops _ returned := toInt32 returned < 0
  count_le _ := le_rfl

def PyClient.sender : Sender where
  count := id
  stops _ returned := returned ≤ 0
  count_le _ := le_rfl

namespace Tcp

/-- Only a return value of zero is passed on as zero. -/
theorem write_eq_zero_iff {bytesSend : ℕ} (h : bytesSend < 2 ^ 32) (o : Outcome) :
    write bytesSend (o.returned bytesSend) = 0 ↔ o.returned bytesSend = 0 := by
  rw [← toInt32_eq_zero_iff h]
  unfold write
  dsimp only
  split_ifs with hzero hneg hpart
  · simp [hzero]
  · simp [hzero]
  · simp [hzero]
  · rw [not_not] at hpart
    rw [hpart]

theorem send_eq_step {s : Link} (h : s.stopped = false) (a : Attempt) :
    (send a s).2 = sender.step s a := by
  have hlt : len a.message < 2 ^ 32 := Nat.mod_lt _ (by decide)
  have hzero := write_eq_zero_iff hlt a.outcome
  by_cases hreturned : a.outcome.returned (len a.message) = 0
  · have hgives : sender.gives a = true := decide_eq_true hreturned
    rw [Sender.step_gives h hgives, send]
    simp only [if_pos (hzero.mpr hreturned)]
    rfl
  · have hgives : sender.gives a = false := decide_eq_false hreturned
    rw [Sender.step_keeps h hgives, send]
    simp only [if_neg (hzero.not.mpr hreturned)]
    rfl

/-- The messages of an execution. -/
def Execution.replies : Execution → Option Attempt
  | .silent _ => none
  | .reply a => some a

/-- The loop makes the attempts of the sender, and ends where the sender stops. -/
theorem run_eq {s : Link} (h : s.stopped = false) (cmds : List Execution) :
    run cmds s = sender.run s (cmds.filterMap Execution.replies) := by
  induction cmds generalizing s with
  | nil => rfl
  | cons cmd cmds ih =>
    cases cmd with
    | silent err =>
      have hrun : run (.silent err :: cmds) s = run cmds s := by
        rw [run, execute]
        simp only [h, Bool.false_eq_true, if_false]
      rw [hrun, ih h]
      rfl
    | reply a =>
      have hstep := send_eq_step h a
      rw [List.filterMap_cons_some (rfl : Execution.replies (.reply a) = some a), run, execute,
        Sender.run, List.foldl_cons, ← hstep]
      cases hstopped : (send a s).2.stopped with
      | true =>
        have hkeep := Sender.run_stopped (S := sender) hstopped (cmds.filterMap Execution.replies)
        simp only [hstopped, if_true]
        exact hkeep.symm
      | false =>
        simp only [hstopped, Bool.false_eq_true, if_false]
        exact ih hstopped

end Tcp

/-- A program that sends until an exception is raised makes the attempts of the sender. -/
theorem calls_eq {S : Sender} {send : Attempt → Parser Link Unit}
    (hsend : ∀ l a, l.stopped = false →
      send a l = (if S.gives a then none else some (), S.step l a)) {l : Link}
    (h : l.stopped = false) (as : List Attempt) : (calls send as l).2 = S.run l as := by
  induction as generalizing l with
  | nil => rfl
  | cons a as ih =>
    have hstep := hsend l a h
    have hstopped : (S.step l a).stopped = S.gives a := by rw [Sender.step_used h]
    rw [Sender.run, List.foldl_cons, calls]
    cases hgives : S.gives a with
    | true =>
      rw [hgives] at hstep hstopped
      rw [Parser.bind_none hstep]
      exact (Sender.run_stopped hstopped as).symm
    | false =>
      rw [hgives] at hstep hstopped
      rw [Parser.bind_some hstep]
      exact ih hstopped

theorem CppClient.send_eq {l : Link} (a : Attempt) (h : l.stopped = false) :
    CppClient.send a l =
      (if CppClient.sender.gives a then none else some (), CppClient.sender.step l a) := by
  by_cases hneg : toInt32 (a.outcome.returned a.message.length) < 0
  · have hgives : CppClient.sender.gives a = true := decide_eq_true hneg
    rw [Sender.step_gives h hgives, CppClient.send, hgives]
    simp only [if_pos hneg]
    rfl
  · have hgives : CppClient.sender.gives a = false := decide_eq_false hneg
    rw [Sender.step_keeps h hgives, CppClient.send, hgives]
    simp only [if_neg hneg]
    rfl

theorem PyClient.sendCommand_eq {l : Link} (a : Attempt) (h : l.stopped = false) :
    PyClient.sendCommand a l =
      (if PyClient.sender.gives a then none else some (), PyClient.sender.step l a) := by
  obtain ⟨message, n | _⟩ := a
  · by_cases hzero : min n message.length = 0
    · have hgives : PyClient.sender.gives ⟨message, .room n⟩ = true :=
        decide_eq_true (Int.natCast_nonpos_iff.mpr hzero)
      rw [Sender.step_gives h hgives, PyClient.sendCommand, hgives]
      simp only [if_pos hzero]
      rfl
    · have hgives : PyClient.sender.gives ⟨message, .room n⟩ = false :=
        decide_eq_false (Int.natCast_nonpos_iff.not.mpr hzero)
      rw [Sender.step_keeps h hgives, PyClient.sendCommand, hgives]
      simp only [if_neg hzero]
      rfl
  · rw [Sender.step_gives h rfl, PyClient.sendCommand]
    rfl

/-! ## Framing -/

theorem forall_take_filterMap {α β : Type} (f : α → Option β) (P : List β → Prop) (l : List α) :
    (∀ k, P ((l.take k).filterMap f)) ↔ ∀ j, P ((l.filterMap f).take j) := by
  constructor
  · intro h j
    induction l generalizing P j with
    | nil => simpa using h 0
    | cons a l ih =>
      cases ha : f a with
      | none =>
        rw [List.filterMap_cons_none ha]
        apply ih
        intro k
        simpa [ha] using h (k + 1)
      | some b =>
        rw [List.filterMap_cons_some ha]
        cases j with
        | zero => simpa using h 0
        | succ j =>
          apply ih (fun bs => P (b :: bs))
          intro k
          simpa [ha] using h (k + 1)
  · intro h k
    have hprefix := (List.take_prefix k l).filterMap f
    rw [List.prefix_iff_eq_take.mp hprefix]
    exact h _

/-- All of the message is taken, or `::write` returns zero. -/
def Tcp.Settles (a : Attempt) : Prop :=
  a.outcome.taken (Tcp.len a.message) = a.message.length ∨
    a.outcome.returned (Tcp.len a.message) = 0

/-- All of the message is taken, or what `::send` returns is negative as an `int`. -/
def CppClient.Settles (a : Attempt) : Prop :=
  a.outcome.taken a.message.length = a.message.length ∨
    toInt32 (a.outcome.returned a.message.length) < 0

/-- All of the message is taken, or nothing of it. -/
def PyClient.Settles (a : Attempt) : Prop :=
  a.outcome.taken a.message.length = a.message.length ∨ a.outcome.returned a.message.length ≤ 0

/-- Over every run, each sender keeps its connection framed just when no call that it makes
takes a part of a message, or ends in the way that this sender passes over. -/
theorem senders_framed_iff (cmds : List Tcp.Execution) (as : List Attempt) :
    ((∀ k, (Tcp.run (cmds.take k) Link.fresh).Framed) ↔
      ∀ a ∈ Tcp.sender.made (cmds.filterMap Tcp.Execution.replies), Tcp.Settles a) ∧
    ((∀ k, (calls CppClient.send (as.take k) Link.fresh).2.Framed) ↔
      ∀ a ∈ CppClient.sender.made as, CppClient.Settles a) ∧
    ((∀ k, (calls PyClient.sendCommand (as.take k) Link.fresh).2.Framed) ↔
      ∀ a ∈ PyClient.sender.made as, PyClient.Settles a) := by
  have hfresh := Link.whole_fresh
  refine ⟨?_, ?_, ?_⟩
  · have htake := forall_take_filterMap Tcp.Execution.replies
      (fun as => (Tcp.sender.run Link.fresh as).Framed) cmds
    have hsettles : ∀ a, Tcp.sender.Settles a ↔ Tcp.Settles a :=
      fun a => or_congr Iff.rfl decide_eq_true_iff
    simp only [Tcp.run_eq hfresh.used, htake, Sender.run_framed_iff hfresh, hsettles]
  · have hsettles : ∀ a, CppClient.sender.Settles a ↔ CppClient.Settles a :=
      fun a => or_congr Iff.rfl decide_eq_true_iff
    simp only [calls_eq (fun _ => CppClient.send_eq) hfresh.used, Sender.run_framed_iff hfresh,
      hsettles]
  · have hsettles : ∀ a, PyClient.sender.Settles a ↔ PyClient.Settles a :=
      fun a => or_congr Iff.rfl decide_eq_true_iff
    simp only [calls_eq (fun _ => PyClient.sendCommand_eq) hfresh.used,
      Sender.run_framed_iff hfresh, hsettles]

/-- Two messages, with room for three bytes of the first. -/
def truncated : List Attempt :=
  [⟨List.replicate 8 1, .room 3⟩, ⟨List.replicate 8 2, .room 8⟩]

/-- The second message is right after three bytes of the first. -/
def cutOff : Link where
  wire := List.replicate 3 1 ++ List.replicate 8 2
  handed := [List.replicate 8 1, List.replicate 8 2]
  stopped := false

theorem cutOff_not_framed : ¬ cutOff.Framed := by
  rintro (hwire | ⟨hstopped, -⟩)
  · revert hwire
    decide
  · exact Bool.false_ne_true hstopped

theorem truncated_not_framed :
    ¬ (Tcp.run (truncated.map .reply) Link.fresh).Framed ∧
      ¬ (calls CppClient.send truncated Link.fresh).2.Framed ∧
      ¬ (calls PyClient.sendCommand truncated Link.fresh).2.Framed := by
  have htcp : Tcp.run (truncated.map .reply) Link.fresh = cutOff := rfl
  have hcpp : (calls CppClient.send truncated Link.fresh).2 = cutOff := rfl
  have hpy : (calls PyClient.sendCommand truncated Link.fresh).2 = cutOff := rfl
  rw [htcp, hcpp, hpy]
  exact ⟨cutOff_not_framed, cutOff_not_framed, cutOff_not_framed⟩

end Koheron.Sending
