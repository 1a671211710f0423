-- SUMMARY: delay_line.v on its own and the two delay models of the notebook, which show the same samples.
import FpgaAcoustic.Rtl.DelayModule

/-!
# Models of the delay line

The notebook delays a signal with a bounded deque, or by shifting an array. The
line of the hardware has all sixteen samples at hand and picks one with a
register, so it follows a new delay without forgetting.
-/

/-! ## The notebook -/

namespace Notebook

variable {α : Type}

/-- `FifoDelayLine`, with its `deque` oldest sample first. -/
structure FifoDelayLine (α : Type) where
  buffer : List α
  maxlen : ℕ
  deriving DecidableEq, Repr

namespace FifoDelayLine

/-- A `deque` keeps the last `maxlen` of its elements. -/
def bounded (maxlen : ℕ) (elements : List α) : List α := elements.drop (elements.length - maxlen)

def init [Zero α] (delaySamples : ℕ) : FifoDelayLine α where
  buffer := bounded delaySamples (List.replicate delaySamples 0)
  maxlen := delaySamples

/-- What is returned, and the line then; none where `buffer[0]` raises. -/
def pushPop (line : FifoDelayLine α) (sample : α) : Option (α × FifoDelayLine α) :=
  if line.maxlen = 0 then some (sample, line)
  else
    match line.buffer with
    | [] => none
    | oldestSample :: _ =>
      some (oldestSample, { line with buffer := bounded line.maxlen (line.buffer ++ [sample]) })

/-- What each call returns, and the line after the last one. -/
def pushPops (line : FifoDelayLine α) : List α → Option (List α × FifoDelayLine α)
  | [] => some ([], line)
  | sample :: samples => do
    let (popped, line) ← line.pushPop sample
    let (rest, line) ← line.pushPops samples
    pure (popped :: rest, line)

end FifoDelayLine

/-- `delayed[start:] = value` of numpy, where a single value fills the slice. -/
def assignFrom (delayed : List α) (start : ℕ) (value : List α) : Option (List α) :=
  let slice := delayed.drop start
  if value.length = slice.length then some (delayed.take start ++ value)
  else
    match value with
    | [v] => some (delayed.take start ++ List.replicate slice.length v)
    | _ => none

/-- `signal[:-delay_samples]` is all but the last samples. -/
def applyDelaySimple [Zero α] (signal : List α) (delaySamples : ℕ) : Option (List α) :=
  if delaySamples = 0 then some signal
  else
    assignFrom (List.replicate signal.length 0) delaySamples
      (signal.take (signal.length - delaySamples))

/-! ## What both of them do -/

/-- The signal behind `d` zeros, as long as it was. -/
def delayed [Zero α] (d : ℕ) (signal : List α) : List α :=
  (List.replicate d 0 ++ signal).take signal.length

theorem getElem?_delayed [Zero α] {d i : ℕ} {signal : List α} (hi : i < signal.length) :
    (delayed d signal)[i]? = if i < d then some 0 else signal[i - d]? := by
  rw [delayed, List.getElem?_take, if_pos hi]
  split
  · rename_i hlt
    rw [List.getElem?_append_left (by rwa [List.length_replicate]), List.getElem?_replicate,
      if_pos hlt]
  · rename_i hle
    rw [List.getElem?_append_right (by rw [List.length_replicate]; omega), List.length_replicate]

namespace FifoDelayLine

/-- A line that is full stays full and returns its oldest sample. -/
theorem pushPop_full {line : FifoDelayLine α} (h : line.buffer.length = line.maxlen) (sample : α) :
    ∃ popped line', line.pushPop sample = some (popped, line') ∧ line'.maxlen = line.maxlen ∧
      line'.buffer.length = line.maxlen ∧
      popped :: line'.buffer = line.buffer ++ [sample] := by
  obtain ⟨buffer, maxlen⟩ := line
  obtain rfl : buffer.length = maxlen := h
  cases buffer with
  | nil => exact ⟨sample, ⟨[], 0⟩, rfl, rfl, rfl, rfl⟩
  | cons oldestSample buffer =>
    refine ⟨oldestSample, ⟨buffer ++ [sample], buffer.length + 1⟩, ?_, rfl, ?_, rfl⟩
    · simp [pushPop, bounded]
    · exact List.length_append

/-- What has been returned and what is still in the line are what it held at
first and the samples. -/
theorem pushPops_full {line : FifoDelayLine α} (h : line.buffer.length = line.maxlen)
    (samples : List α) :
    ∃ outs line', line.pushPops samples = some (outs, line') ∧ outs.length = samples.length ∧
      outs ++ line'.buffer = line.buffer ++ samples := by
  induction samples generalizing line with
  | nil => exact ⟨[], line, rfl, rfl, (List.append_nil _).symm⟩
  | cons sample samples ih =>
    obtain ⟨popped, line₁, hpop, hmaxlen, hfull, hfirst⟩ := pushPop_full h sample
    obtain ⟨outs, line₂, hpops, hlength, hrest⟩ := ih (hfull.trans hmaxlen.symm)
    refine ⟨popped :: outs, line₂, ?_, congrArg (· + 1) hlength, ?_⟩
    · simp [pushPops, hpop, hpops]
    · rw [List.cons_append, hrest, ← List.cons_append, hfirst, List.append_assoc,
        List.singleton_append]

theorem pushPops_init [Zero α] (d : ℕ) (samples : List α) :
    ∃ line, (init d : FifoDelayLine α).pushPops samples = some (delayed d samples, line) := by
  have hinit : (init d : FifoDelayLine α).buffer = List.replicate d 0 := by
    simp [init, bounded]
  have hfull : (init d : FifoDelayLine α).buffer.length = (init d : FifoDelayLine α).maxlen := by
    rw [hinit, List.length_replicate]
    rfl
  obtain ⟨outs, line, hpops, hlength, heq⟩ := pushPops_full hfull samples
  refine ⟨line, ?_⟩
  rw [hpops, delayed, ← hinit, ← heq, ← hlength, List.take_left]

end FifoDelayLine

/-- The shift never raises: the slice and its value have the same length. -/
theorem applyDelaySimple_eq [Zero α] (d : ℕ) (signal : List α) :
    applyDelaySimple signal d = some (delayed d signal) := by
  rw [applyDelaySimple, delayed]
  split
  · rename_i hzero
    rw [hzero, List.replicate_zero, List.nil_append, List.take_length]
  · have hslice : (signal.take (signal.length - d)).length =
        ((List.replicate signal.length (0 : α)).drop d).length := by
      rw [List.length_take, List.length_drop, List.length_replicate]
      omega
    unfold assignFrom
    rw [if_pos hslice, List.take_replicate, List.take_append, List.take_replicate,
      List.length_replicate, Nat.min_comm]

end Notebook

/-! ## The line -/

namespace DelayLine

/-- The state in each cycle of a run. -/
def run (s : Regs) (inp : ℕ → In) : ℕ → Regs := Clocked.run step s inp

theorem run_succ (s : Regs) (inp : ℕ → In) (t : ℕ) :
    run s inp (t + 1) = step (run s inp t) (inp t) := rfl

/-- The cycles in which the line takes a sample. -/
def takes (inp : ℕ → In) (t : ℕ) : Bool := (inp t).pcmValid && !(inp t).rst

/-- The number of samples taken before cycle `t`. -/
def taken (inp : ℕ → In) (t : ℕ) : ℕ := Clocked.pulses (takes inp) t

/-- The run starts with a reset. -/
abbrev FromReset (inp : ℕ → In) : Prop := Clocked.ResetFirst fun t => (inp t).rst

/-- The samples come in order, one with every strobe. -/
def Presents (inp : ℕ → In) (x : ℕ → BitVec 16) : Prop :=
  ∀ t, takes inp t = true → (inp t).pcmData = x (taken inp t)

/-- The same samples at the same times, with another delay. -/
def retuned (inp : ℕ → In) (delay : BitVec 4) (t : ℕ) : In := { inp t with delay := delay }

/-! ## Specification -/

/-- The first `n` samples as numbers. -/
def signal (x : ℕ → BitVec 16) (n : ℕ) : List ℤ := (List.range n).map fun k => (x k).toInt

/-- Sample number `n - d`, which is zero up to number `d`, and so do the models
have it: the deque with its `n`-th call and the array at this position. -/
structure Agrees (x : ℕ → BitVec 16) (d n : ℕ) (v : BitVec 16) : Prop where
  sample : v = if n ≤ d then 0#16 else x (n - d - 1)
  fifo : ∃ outs line, (Notebook.FifoDelayLine.init d).pushPops (signal x n) = some (outs, line) ∧
    outs[n - 1]? = some v.toInt
  shift : ∀ m, n ≤ m → ∃ delayed, Notebook.applyDelaySimple (signal x m) d = some delayed ∧
    delayed[n - 1]? = some v.toInt

theorem getElem?_delayed_signal (x : ℕ → BitVec 16) (d : ℕ) {n m : ℕ} (hn : 1 ≤ n) (hm : n ≤ m) :
    (Notebook.delayed d (signal x m))[n - 1]? =
      some (if n ≤ d then 0#16 else x (n - d - 1)).toInt := by
  have hlength : (signal x m).length = m := by
    rw [signal, List.length_map, List.length_range]
  rw [Notebook.getElem?_delayed (by omega)]
  rcases Nat.lt_or_ge d n with hlt | hle
  · have hindex : n - 1 - d = n - d - 1 := by omega
    have hget : (List.range m)[n - 1 - d]? = some (n - 1 - d) :=
      List.getElem?_range (by omega)
    rw [if_neg (by omega), if_neg hlt.not_ge, signal, List.getElem?_map, hget, hindex]
    rfl
  · rw [if_pos (by omega), if_pos hle]
    rfl

theorem agrees_of_eq {x : ℕ → BitVec 16} {d n : ℕ} {v : BitVec 16} (hn : 1 ≤ n)
    (h : v = if n ≤ d then 0#16 else x (n - d - 1)) : Agrees x d n v := by
  refine ⟨h, ?_, fun m hm => ?_⟩
  · obtain ⟨line, hline⟩ := Notebook.FifoDelayLine.pushPops_init d (signal x n)
    refine ⟨_, line, hline, ?_⟩
    rw [getElem?_delayed_signal x d hn le_rfl, ← h]
  · refine ⟨_, Notebook.applyDelaySimple_eq d (signal x m), ?_⟩
    rw [getElem?_delayed_signal x d hn hm, ← h]

/-! ## Runs -/

section Run

variable {s : Regs} {inp : ℕ → In} {x : ℕ → BitVec 16} {t : ℕ}

theorem FromReset.taken_one (h : FromReset inp) : taken inp 1 = 0 := by
  have hrst : (inp 0).rst = true := h.rst_zero
  simp [taken, Clocked.pulses, takes, hrst]

/-- The samples, with zeros before the first one. -/
def afterZeros (x : ℕ → BitVec 16) (k : ℤ) : BitVec 16 := if 0 ≤ k then x k.toNat else 0#16

/-- In every cycle the line holds the last sixteen samples. -/
theorem FromReset.holds (h : FromReset inp) (hdata : Presents inp x) (ht : 1 ≤ t) :
    Holds (afterZeros x) (taken inp t) (run s inp t) := by
  have hstart : Holds (afterZeros x) (taken inp 1) (run s inp 1) := by
    have hrst : (inp 0).rst = true := h.rst_zero
    rw [h.taken_one]
    show Holds _ _ (step s (inp 0))
    rw [step, if_pos hrst]
    exact Holds.reset fun k hk => if_neg (not_le.mpr hk)
  have htakes : ∀ t, 1 ≤ t → takes inp t = (inp t).pcmValid := fun t ht => h.and_not _ ht
  refine Holds.pulses (fun t _ => run_succ s inp t) (fun _ => h.low) htakes (fun t _ ht => ?_)
    hstart ht
  rw [hdata t ht, afterZeros, if_pos (Int.natCast_nonneg _), Int.toNat_natCast]
  rfl

/-- The register follows the delay by one cycle. -/
theorem FromReset.delayReg_succ (h : FromReset inp) (ht : 1 ≤ t) :
    (run s inp (t + 1)).delayReg = (inp t).delay := by
  have hrst : (inp t).rst = false := h.low ht
  rw [run_succ, step, if_neg (by rw [hrst]; exact Bool.false_ne_true)]

/-- Whatever the delay has been before, the one of the last cycle counts. -/
theorem FromReset.delayedPcmData_succ (h : FromReset inp) (hdata : Presents inp x) (ht : 1 ≤ t) :
    (run s inp (t + 1)).delayedPcmData =
      if taken inp (t + 1) ≤ (inp t).delay.toNat then 0#16
      else x (taken inp (t + 1) - (inp t).delay.toNat - 1) := by
  have hholds := h.holds (s := s) hdata (Nat.le_add_left 1 t)
  unfold Regs.delayedPcmData
  rw [hholds]
  simp only [h.delayReg_succ ht, afterZeros]
  split
  · rw [if_neg (by omega)]
    refine congrArg x ?_
    omega
  · rw [if_pos (by omega)]

/-- The samples that the line holds do not depend on the delay. -/
theorem buffer_retuned (s : Regs) (inp : ℕ → In) (e : BitVec 4) (t : ℕ) :
    (run s (retuned inp e) t).buffer = (run s inp t).buffer := by
  induction t with
  | zero => rfl
  | succ t ih =>
    have hstep : ∀ (r r' : Regs), r.buffer = r'.buffer →
        (step r (retuned inp e t)).buffer = (step r' (inp t)).buffer := by
      intro r r' hr
      have hrst : (retuned inp e t).rst = (inp t).rst := rfl
      unfold step
      rw [hrst, hr]
      cases (inp t).rst <;> rfl
    exact hstep _ _ ih

theorem delayReg_retuned {e : BitVec 4} (he : (inp t).delay = e) :
    (run s (retuned inp e) (t + 1)).delayReg = (run s inp (t + 1)).delayReg := by
  have hdelay : ∀ r i, (step r i).delayReg = if i.rst then 0#4 else i.delay := by
    intro r i
    unfold step
    cases i.rst <;> rfl
  rw [run_succ, run_succ, hdelay, hdelay, he]
  rfl

end Run

/-- With a constant delay the line shows what the models return. After a change,
from the next edge on it shows what it would have shown with the new delay all
along. -/
theorem output_agrees (s : Regs) {inp : ℕ → In} {x : ℕ → BitVec 16} (h : FromReset inp)
    (hdata : Presents inp x) :
    (∀ (d : BitVec 4) (t : ℕ), (∀ u, 1 ≤ u → u < t → (inp u).delay = d) → 1 ≤ taken inp t →
      Agrees x d.toNat (taken inp t) (run s inp t).delayedPcmData) ∧
    ∀ (e : BitVec 4) (u t : ℕ), (∀ v, u ≤ v → v < t → (inp v).delay = e) → u + 1 ≤ t →
      (run s inp t).delayedPcmData = (run s (retuned inp e) t).delayedPcmData := by
  refine ⟨fun d t hd hn => ?_, fun e u t he ht => ?_⟩
  · match t with
    | 0 => exact absurd hn (Nat.not_succ_le_zero 0)
    | 1 =>
      rw [h.taken_one] at hn
      exact absurd hn (Nat.not_succ_le_zero 0)
    | t + 2 =>
      refine agrees_of_eq hn ?_
      rw [h.delayedPcmData_succ hdata (Nat.le_add_left 1 t),
        hd (t + 1) (Nat.le_add_left 1 t) (Nat.lt_succ_self _)]
  · obtain ⟨k, rfl⟩ := Nat.exists_eq_add_of_le ht
    rw [Nat.add_right_comm] at he ⊢
    have hdelay := he (u + k) (Nat.le_add_right u k) (Nat.lt_succ_self _)
    unfold Regs.delayedPcmData
    simp only [buffer_retuned, delayReg_retuned hdelay]

/-- A sample in every cycle, with a delay that changes from one to two. -/
def rising (t : ℕ) : In := ⟨t == 0, true, if t < 9 then 1 else 2, BitVec.ofNat 16 t⟩

theorem rising_output_agrees :
    (run default rising 5).delayedPcmData = 3 ∧
      Agrees (fun k => BitVec.ofNat 16 (k + 1)) 1 4 (run default rising 5).delayedPcmData ∧
      (run default rising 10).delayedPcmData = (run default (retuned rising 2) 10).delayedPcmData := by
  have hreset : FromReset rising := ⟨rfl, fun t => by simp [rising]⟩
  have htaken : ∀ k, taken rising (k + 1) = k := by
    intro k
    induction k with
    | zero => exact hreset.taken_one
    | succ k ih =>
      have htakes : takes rising (k + 1) = true := by simp [takes, rising]
      rw [taken, Clocked.pulses_succ_of_true htakes]
      exact congrArg (· + 1) ih
  have hdata : Presents rising fun k => BitVec.ofNat 16 (k + 1) := by
    rintro (_ | k) htakes
    · exact absurd htakes (by decide)
    · rw [htaken]
      rfl
  obtain ⟨hconst, hchange⟩ := output_agrees default hreset hdata
  refine ⟨by decide, ?_, hchange 2 9 10 ?_ (by decide)⟩
  · have hagrees := hconst 1 5 ?_ (by decide)
    · exact hagrees
    · intro u _ hu
      exact if_pos (by omega)
  · intro v hv _
    exact if_neg (by omega)

end DelayLine
