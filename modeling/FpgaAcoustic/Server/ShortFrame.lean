-- SUMMARY: Which WebSocket commands are executed although their frame is not the last of its message or ends before the arguments do.
import Mathlib.Data.List.TakeWhile
import FpgaAcoustic.Server.Extent
import FpgaAcoustic.Server.Frame

/-!
# Short frames

The session records whether a frame is final and how long its payload is, and
compares neither with anything when it executes the command. A frame without
the flag is taken for a whole message, and a payload that ends too early is
continued by what the buffer held.
-/

namespace Koheron.WebSocket

open Bytes

/-- The frame is final, and the arguments have been read out of its payload. -/
def Invocation.Whole (inv : Invocation) : Prop :=
  inv.header.fin = true ∧ ((headerSize + inv.position : ℕ) : ℤ) ≤ inv.header.payloadSize

instance (inv : Invocation) : Decidable inv.Whole :=
  inferInstanceAs (Decidable (_ ∧ _))

/-- The operation that a frame asks for. -/
def Frame.signature (table : Table) (f : Frame) : Option (List ArgType) :=
  let ids := headerIds (Memory.ofBytes (f.payload.take headerSize))
  table ids.1 ids.2

/-- Where the arguments of an operation end at all, they end within the payload
of a final frame. What is missing of a length counts as zero. -/
def Frame.Whole (table : Table) (f : Frame) : Prop :=
  ∀ sig, f.signature table = some sig →
    ∀ n, extent (buildArgsPacks [] sig) (Memory.ofBytes (f.payload.drop headerSize)) = some n →
      f.fin = true ∧ headerSize + n ≤ f.payload.length

/-! ## One command -/

section Dispatch

variable {table : Table} {cmd : Command} {header : Header}

theorem execute_takes {sig : List ArgType}
    (hsig : table (headerIds cmd.header).1 (headerIds cmd.header).2 = some sig) :
    Buffer.Takes (execute Buffer.session table (headerIds cmd.header)) cmd.payload
      (extent (buildArgsPacks [] sig) cmd.payload.begin) := by
  rw [execute_of_table hsig]
  exact (Buffer.seq_parsePack_takes _ _).map _

theorem exists_mem_dispatch {sig : List ArgType} {n : ℕ}
    (hsig : table (headerIds cmd.header).1 (headerIds cmd.header).2 = some sig)
    (hext : extent (buildArgsPacks [] sig) cmd.payload.begin = some n) :
    ∃ inv ∈ dispatch table cmd header, inv.header = header ∧
      inv.position = cmd.payload.position + n := by
  obtain ⟨call, hcall⟩ := (execute_takes hsig).accepts n hext
  refine ⟨⟨call, header, cmd.payload.position + n⟩, ?_, rfl, rfl⟩
  rw [dispatch, hcall]
  rfl

theorem extent_of_mem_dispatch {inv : Invocation} (h : inv ∈ dispatch table cmd header) :
    ∃ sig n, table (headerIds cmd.header).1 (headerIds cmd.header).2 = some sig ∧
      extent (buildArgsPacks [] sig) cmd.payload.begin = some n ∧
      inv.header = header ∧ inv.position = cmd.payload.position + n := by
  cases hsig : table (headerIds cmd.header).1 (headerIds cmd.header).2 with
  | none =>
    rw [dispatch, execute, hsig] at h
    simp at h
  | some sig =>
    have htakes := execute_takes hsig
    cases hext : extent (buildArgsPacks [] sig) cmd.payload.begin with
    | none =>
      have hnone := htakes.refuses hext
      rw [dispatch] at h
      simp [hnone] at h
    | some n =>
      obtain ⟨call, hcall⟩ := htakes.accepts n hext
      rw [dispatch, hcall] at h
      obtain rfl : (⟨call, header, cmd.payload.position + n⟩ : Invocation) = inv := by
        simpa [Buffer.skip] using h
      exact ⟨sig, n, rfl, hext, rfl, rfl⟩

end Dispatch

section Frame

variable {table : Table} {f : Frame}

theorem signature_eq (table : Table) (hlarge : headerSize ≤ f.payload.length)
    (stale : Memory × Memory) :
    table (headerIds (f.command stale).header).1 (headerIds (f.command stale).header).2 =
      f.signature table := by
  have hids := headerIds_of_starts (Memory.write_starts stale.1 (f.payload.take headerSize))
    (List.length_take_of_le hlarge)
  rw [Frame.signature, ← hids]
  rfl

theorem begin_command (stale : Memory × Memory) :
    (f.command stale).payload.begin = stale.2.write (f.payload.drop headerSize) :=
  Memory.drop_zero _

/-- Whatever the buffer held, the command of a whole frame is executed with
arguments out of its payload. -/
theorem whole_of_mem_dispatch (hf : f.Accepted) (hwhole : f.Whole table) {stale : Memory × Memory}
    {inv : Invocation} (h : inv ∈ dispatch table (f.command stale) f.header) : inv.Whole := by
  obtain ⟨sig, n, hsig, hext, hheader, hposition⟩ := extent_of_mem_dispatch h
  rw [signature_eq table hf.large] at hsig
  rw [begin_command] at hext
  have hstarts := Memory.write_starts stale.2 (f.payload.drop headerSize)
  cases hzeros : extent (buildArgsPacks [] sig)
      (Memory.ofBytes (f.payload.drop headerSize)) with
  | none =>
    rw [extent_of_none hstarts hzeros] at hext
    simp at hext
  | some k =>
    obtain ⟨hfin, hle⟩ := hwhole sig hsig k hzeros
    have hbody : k ≤ (f.payload.drop headerSize).length := by
      rw [List.length_drop]
      omega
    rw [extent_of_some hstarts hzeros hbody] at hext
    obtain rfl : k = n := Option.some.inj hext
    rw [Invocation.Whole, hheader, hposition]
    refine ⟨hfin, Int.ofNat_le.mpr ?_⟩
    show headerSize + (0 + k) ≤ f.payload.length
    omega

/-- The buffers of a command that hold zeros. -/
def zeros : Memory × Memory := (fun _ => 0, fun _ => 0)

/-- Where the buffer held zeros, the frame of a whole command is whole. -/
theorem whole_of_forall_dispatch (hf : f.Accepted)
    (h : ∀ inv ∈ dispatch table (f.command zeros) f.header, inv.Whole) : f.Whole table := by
  intro sig hsig n hext
  rw [← signature_eq table hf.large zeros] at hsig
  have hbegin : (f.command zeros).payload.begin =
      Memory.ofBytes (f.payload.drop headerSize) := begin_command zeros
  rw [← hbegin] at hext
  obtain ⟨inv, hinv, hheader, hposition⟩ := exists_mem_dispatch hsig hext
  obtain ⟨hfin, hle⟩ := h inv hinv
  rw [hheader] at hfin hle
  rw [hposition] at hle
  refine ⟨hfin, ?_⟩
  have hle' : headerSize + (0 + n) ≤ f.payload.length := Int.ofNat_le.mp hle
  omega

end Frame

/-! ## Runs -/

/-- The frames that are served: those before the first one that ends the session. -/
def served (frames : List Frame) : List Frame := frames.takeWhile fun f => decide f.Accepted

theorem accepted_of_mem_served {f : Frame} {frames : List Frame} (h : f ∈ served frames) :
    f.Accepted :=
  of_decide_eq_true (List.mem_takeWhile_imp (p := fun f : Frame => decide f.Accepted) h)

section Runs

variable {table : Table} {frames : List Frame} {part : List Byte} {s : State}

/-- The calls of the first `n` passes are those of the first `n` frames served. -/
theorem mem_rounds_iff (hcut : Cut part) (h : Idle s (frames.flatMap Frame.encode ++ part))
    {n : ℕ} {inv : Invocation} :
    inv ∈ rounds table n s ↔ ∃ i < n, ∃ f, (served frames)[i]? = some f ∧
      inv ∈ dispatch table (f.command (s.stale i)) f.header := by
  induction n generalizing frames s with
  | zero => simp [rounds]
  | succ n ih =>
    cases frames with
    | nil =>
      have hnone : readCommand s = (none, (readCommand s).2) := Prod.ext (readCommand_cut h hcut) rfl
      rw [rounds, hnone]
      simp [served]
    | cons f frames =>
      rw [List.flatMap_cons, List.append_assoc] at h
      by_cases hf : f.Accepted
      · obtain ⟨s', hread, hidle, hheader, hstale⟩ := readCommand_accepted h hf
        have hserved : served (f :: frames) = f :: served frames := by
          simp [served, hf]
        rw [rounds, hread]
        simp only [hheader, hserved, List.mem_append, ih hidle, hstale, Option.mem_toList]
        constructor
        · rintro (hinv | ⟨i, hi, g, hg, hinv⟩)
          · exact ⟨0, Nat.succ_pos n, f, rfl, hinv⟩
          · exact ⟨i + 1, Nat.succ_lt_succ hi, g, hg, hinv⟩
        · rintro ⟨i, hi, g, hg, hinv⟩
          cases i with
          | zero =>
            obtain rfl : f = g := Option.some.inj hg
            exact .inl hinv
          | succ i => exact .inr ⟨i, Nat.lt_of_succ_lt_succ hi, g, hg, hinv⟩
      · have hnone : readCommand s = (none, (readCommand s).2) :=
          Prod.ext (readCommand_refused h hf) rfl
        rw [rounds, hnone]
        simp [served, hf]

/-- All calls of a run are for final frames that hold the arguments, whatever the
buffers held, just when each frame served is whole. -/
theorem rounds_whole_iff (hcut : Cut part) (h : Idle s (frames.flatMap Frame.encode ++ part)) :
    (∀ stale n, ∀ inv ∈ rounds table n { s with stale }, inv.Whole) ↔
      ∀ f ∈ served frames, f.Whole table := by
  have hidle : ∀ stale, Idle { s with stale } (frames.flatMap Frame.encode ++ part) :=
    fun _ => ⟨h.flat, h.clean, h.opened⟩
  constructor
  · intro hrun f hf
    apply whole_of_forall_dispatch (accepted_of_mem_served hf)
    intro inv hinv
    obtain ⟨i, hi⟩ := List.mem_iff_getElem?.mp hf
    refine hrun (fun _ => zeros) (i + 1) inv ?_
    exact (mem_rounds_iff hcut (hidle _)).mpr ⟨i, Nat.lt_succ_self i, f, hi, hinv⟩
  · intro hframes stale n inv hinv
    obtain ⟨i, -, f, hi, hinv⟩ := (mem_rounds_iff hcut (hidle _)).mp hinv
    have hf : f ∈ served frames := List.mem_of_getElem? hi
    exact whole_of_mem_dispatch (accepted_of_mem_served hf) (hframes f hf) hinv

end Runs

/-! ## One number -/

/-- One operation, with a number. -/
def oneNumber : Table := fun driver operation =>
  if driver = 2 ∧ operation = 0 then some [.scalar .uint32] else none

/-- A frame for it, with as much of the number as `argument` has. -/
def numberFrame (fin : Bool) (argument : List Byte) (hlen : argument.length ≤ 4) : Frame where
  fin
  rsv := 0
  opcode := 2
  form := .small
  mask := fun i => BitVec.ofNat 8 (3 + i)
  payload := commandHeader [0, 0, 0, 0] 2 0 ++ argument
  carries := by
    rw [List.length_append, length_commandHeader rfl]
    show 8 + argument.length ≤ 125
    omega

/-- One final frame with the number 7. -/
def sevenFrame : Frame := numberFrame true (append32 7) (by decide)

theorem seven_rounds_whole :
    served [sevenFrame] = [sevenFrame] ∧
      ∀ stale n, ∀ inv ∈ rounds oneNumber n { arriving [sevenFrame] with stale }, inv.Whole := by
  have hidle : Idle (arriving [sevenFrame]) ([sevenFrame].flatMap Frame.encode ++ []) := by
    rw [List.append_nil]
    exact idle_arriving _
  refine ⟨rfl, (rounds_whole_iff (cut_nil sevenFrame) hidle).mpr ?_⟩
  intro f hf sig hsig n hext
  obtain rfl : f = sevenFrame := List.mem_singleton.mp ((List.takeWhile_sublist _).subset hf)
  have hfound : sevenFrame.signature oneNumber = some [.scalar .uint32] := by decide
  obtain rfl : [.scalar .uint32] = sig := Option.some.inj (hfound.symm.trans hsig)
  obtain rfl : 4 = n := Option.some.inj hext
  decide

/-- A frame that is not final, and one that ends where the number should begin. -/
def fragments : List Frame :=
  [numberFrame false (append32 7) (by decide), numberFrame true [] (by decide)]

theorem fragments_executed :
    (rounds oneNumber 2 (arriving fragments)).map (fun inv => (inv.header.fin, inv.call.args)) =
        [(false, [.scalar ⟨.uint32, 7⟩]), (true, [.scalar ⟨.uint32, 0xaaaaaaaa⟩])] ∧
      ∀ inv ∈ rounds oneNumber 2 (arriving fragments), ¬ inv.Whole := by
  decide +kernel

end Koheron.WebSocket
