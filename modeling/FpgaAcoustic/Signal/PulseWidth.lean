-- SUMMARY: Codes that send a bit as a pulse of one of two widths, and the receiver that classifies the widths.
import FpgaAcoustic.Signal.Clocked

/-!
# Pulse-width codes

A bit is a high pulse of one of two widths, and is low up to a fixed period from
then on. A receiver that measures the pulses has the bits back for any threshold
between the widths, however long the wave stays low in the end.
-/

namespace PulseWidth

open Clocked

/-- The widths of the two pulses, and the cycles of a bit. -/
structure Code where
  off : ℕ
  on : ℕ
  period : ℕ
  off_pos : 1 ≤ off
  off_lt_on : off < on
  on_lt_period : on < period

/-! ## The sender -/

namespace Code

variable (C : Code)

def width (b : Bool) : ℕ := if b then C.on else C.off

theorem width_pos (b : Bool) : 1 ≤ C.width b := by
  cases b with
  | false => exact C.off_pos
  | true => exact C.off_pos.trans C.off_lt_on.le

theorem width_lt_period (b : Bool) : C.width b < C.period := by
  cases b with
  | false => exact C.off_lt_on.trans C.on_lt_period
  | true => exact C.on_lt_period

def pulse (b : Bool) : List Bool :=
  List.replicate (C.width b) true ++ List.replicate (C.period - C.width b) false

def encode (bits : List Bool) : List Bool := bits.flatMap C.pulse

@[simp] theorem encode_nil : C.encode [] = [] := rfl

@[simp] theorem encode_cons (b : Bool) (bits : List Bool) :
    C.encode (b :: bits) = C.pulse b ++ C.encode bits := rfl

/-- A signal that is high for the width of a bit sends it. -/
theorem span_eq_pulse {x : ℕ → Bool} {t : ℕ} {b : Bool}
    (h : ∀ k, k < C.period → x (t + k) = decide (k < C.width b)) :
    span x t C.period = C.pulse b := by
  have hwidth := C.width_lt_period b
  have hsplit : C.period = C.width b + (C.period - C.width b) := by omega
  rw [pulse, hsplit, span_add, ← hsplit]
  refine congrArg₂ _ (span_eq_replicate fun k hk => ?_) (span_eq_replicate fun k hk => ?_)
  · rw [h k (by omega), decide_eq_true hk]
  · rw [Nat.add_assoc, h _ (by omega), decide_eq_false (by omega)]

end Code

/-! ## The receiver -/

/-- The widths of the pulses that end in a wave, the first of which has lasted
for `n` cycles before it. -/
def widths : ℕ → List Bool → List ℕ
  | _, [] => []
  | n, true :: wave => widths (n + 1) wave
  | n, false :: wave => if n = 0 then widths 0 wave else n :: widths 0 wave

/-- A pulse that is wider than the threshold is a one. -/
def receive (threshold : ℕ) (wave : List Bool) : List Bool :=
  (widths 0 wave).map fun n => decide (threshold < n)

theorem widths_high (n k : ℕ) (wave : List Bool) :
    widths n (List.replicate k true ++ wave) = widths (n + k) wave := by
  induction k generalizing n with
  | zero => rfl
  | succ k ih =>
    rw [List.replicate_succ, List.cons_append, widths, ih]
    congr 1
    omega

theorem widths_low (k : ℕ) (wave : List Bool) :
    widths 0 (List.replicate k false ++ wave) = widths 0 wave := by
  induction k with
  | zero => rfl
  | succ k ih => rw [List.replicate_succ, List.cons_append, widths, if_pos rfl, ih]

variable (C : Code)

theorem widths_pulse (b : Bool) (wave : List Bool) :
    widths 0 (C.pulse b ++ wave) = C.width b :: widths 0 wave := by
  have hpos := C.width_pos b
  have hwidth := C.width_lt_period b
  obtain ⟨k, hk⟩ : ∃ k, C.period - C.width b = k + 1 := ⟨C.period - C.width b - 1, by omega⟩
  rw [Code.pulse, List.append_assoc, widths_high, Nat.zero_add, hk, List.replicate_succ,
    List.cons_append, widths, if_neg (by omega), widths_low]

theorem widths_encode (bits : List Bool) (n : ℕ) :
    widths 0 (C.encode bits ++ List.replicate n false) = bits.map C.width := by
  induction bits with
  | nil =>
    have hlow := widths_low n []
    rwa [List.append_nil] at hlow
  | cons b bits ih => rw [Code.encode_cons, List.append_assoc, widths_pulse, ih, List.map_cons]

theorem receive_encode {threshold : ℕ} (hoff : C.off ≤ threshold) (hon : threshold < C.on)
    (bits : List Bool) (n : ℕ) :
    receive threshold (C.encode bits ++ List.replicate n false) = bits := by
  rw [receive, widths_encode, List.map_map]
  refine List.map_id'' ?_ bits
  intro b
  cases b with
  | false => exact decide_eq_false hoff.not_gt
  | true => exact decide_eq_true hon

end PulseWidth
