-- SUMMARY: Valid-ready channels: the order of what is transferred, and a one-place responder that answers requests.
import FpgaAcoustic.Signal.Clocked

/-!
# Handshakes

A value is transferred in a cycle in which its source says it is valid and its
sink is ready. A source that presents a sequence moves on to the next value with
each transfer.

A responder with one place keeps the answer to a request until it is taken. A
flag says whether the place is full, and it is cleared by a transfer even when
another request comes in the same cycle. So a request that finds the place full
is lost, or takes the place of the answer before.
-/

namespace Clocked

universe u v

variable {α : Type u} {β : Type v} {v : ℕ → Bool} {x : ℕ → α} {f T : ℕ}

/-! ## Counts -/

/-- The number of cycles `f .. T - 1` in which `v` is high. -/
def count (v : ℕ → Bool) (f T : ℕ) : ℕ := ((List.Ico f T).filter v).length

@[simp] theorem count_self (v : ℕ → Bool) (f : ℕ) : count v f f = 0 := by
  simp [count]

theorem count_succ (v : ℕ → Bool) (hf : f ≤ T) : count v f (T + 1) = count v f T + (v T).toNat := by
  cases hv : v T <;> simp [count, List.Ico.succ_top hf, hv]

theorem length_during (v : ℕ → Bool) (x : ℕ → α) (f T : ℕ) :
    (during v x f T).length = count v f T := List.length_map _

/-! ## Sequences -/

/-- The value in each cycle in which `v` is high is the next one of a sequence. -/
def Presents (v : ℕ → Bool) (x : ℕ → α) (f : ℕ) (q : ℕ → α) : Prop :=
  ∀ t, f ≤ t → v t = true → x t = q (count v f t)

/-! ## Responders -/

/-- From cycle `f` on, when the place is empty, a request fills it and a transfer
empties it, and the transfer wins. -/
structure Responder (request ready valid : ℕ → Bool) (f : ℕ) : Prop where
  empty : valid f = false
  next : ∀ t, f ≤ t → valid (t + 1) = (!(valid t && ready t) && (request t || valid t))

/-- The data of an answer is registered with its request, and kept without one. -/
def Registers (request : ℕ → Bool) (answer data : ℕ → α) (f : ℕ) : Prop :=
  ∀ t, f ≤ t → data (t + 1) = if request t then answer t else data t

/-- Each request finds the place empty. -/
def Spaced (request valid : ℕ → Bool) (f : ℕ) : Prop :=
  ∀ t, f ≤ t → request t = true → valid t = false

namespace Responder

variable {request ready valid : ℕ → Bool} {answer data : ℕ → α}

/-- The answers that have been taken, and the one in the place. -/
def answers (ready valid : ℕ → Bool) (data : ℕ → α) (f T : ℕ) : List α :=
  during (fun t => valid t && ready t) data f T ++ if valid T then [data T] else []

/-- An answer that is not taken stays. -/
theorem next_of_stalled (h : Responder request ready valid f) {t : ℕ} (ht : f ≤ t)
    (hvalid : valid t = true) (hready : ready t = false) : valid (t + 1) = true := by
  rw [h.next t ht, hvalid, hready, Bool.or_true]
  rfl

/-- Of the requests, those that find the place full are not answered; each of the
others has its answer, taken or in the place. -/
theorem count_eq (h : Responder request ready valid f) (hf : f ≤ T) :
    count (fun t => valid t && ready t) f T + (valid T).toNat +
      count (fun t => request t && valid t) f T = count request f T := by
  induction T, hf using Nat.le_induction with
  | base => simp [h.empty]
  | succ T hf ih =>
    have hstep : (valid T && ready T).toNat + (valid (T + 1)).toNat +
        (request T && valid T).toNat = (valid T).toNat + (request T).toNat := by
      rw [h.next T hf]
      cases valid T <;> cases ready T <;> cases request T <;> rfl
    simp only [count_succ _ hf]
    omega

/-- The answers are those of the requests, in their order, where each request
finds the place empty. -/
theorem answers_eq (h : Responder request ready valid f) (hdata : Registers request answer data f)
    (hspaced : Spaced request valid f) (hf : f ≤ T) :
    answers ready valid data f T = during request answer f T := by
  unfold answers
  induction T, hf using Nat.le_induction with
  | base => simp [h.empty]
  | succ T hf ih =>
    cases hreq : request T with
    | true =>
      -- The place is empty, so all answers before have been taken.
      have hempty := hspaced T hf hreq
      have hquiet : (valid T && ready T) = false := by rw [hempty]; rfl
      have hfull : valid (T + 1) = true := by rw [h.next T hf, hreq, hempty]; rfl
      rw [hempty, if_neg Bool.false_ne_true, List.append_nil] at ih
      rw [during_succ_of_false hf hquiet, during_succ_of_true hf hreq, ih, hfull, if_pos rfl,
        hdata T hf, hreq, if_pos rfl]
    | false =>
      have hkept : data (T + 1) = data T := by rw [hdata T hf, hreq, if_neg Bool.false_ne_true]
      have hnext := h.next T hf
      rw [hreq, Bool.false_or] at hnext
      rw [during_succ_of_false hf hreq, ← ih]
      cases htaken : (valid T && ready T) with
      | true =>
        rw [htaken, Bool.not_true, Bool.false_and] at hnext
        rw [during_succ_of_true hf htaken, hnext, (Bool.and_eq_true_iff.mp htaken).1, if_pos rfl,
          if_neg Bool.false_ne_true, List.append_nil]
      | false =>
        rw [htaken, Bool.not_false, Bool.true_and] at hnext
        rw [during_succ_of_false hf htaken, hnext, hkept]

theorem length_answers (ready valid : ℕ → Bool) (data : ℕ → α) (f T : ℕ) :
    (answers ready valid data f T).length =
      count (fun t => valid t && ready t) f T + (valid T).toNat := by
  rw [answers, List.length_append, length_during]
  cases valid T <;> rfl

/-- There are as many answers as requests just when each request finds the place
empty. -/
theorem counts_iff (h : Responder request ready valid f) :
    (∀ T, f ≤ T → count (fun t => valid t && ready t) f T + (valid T).toNat =
      count request f T) ↔ Spaced request valid f := by
  constructor
  · intro hall t ht hreq
    have hle : f ≤ t + 1 := ht.trans (Nat.le_add_right t 1)
    have hlen := hall (t + 1) hle
    have hcount := h.count_eq hle
    have hnone : count (fun t => request t && valid t) f (t + 1) = 0 := by omega
    rw [count_succ _ ht, hreq, Bool.true_and, Nat.add_eq_zero_iff] at hnone
    exact Bool.toNat_eq_zero.mp hnone.2
  · intro hspaced T hT
    have hnone : count (fun t => request t && valid t) f T = 0 := by
      rw [count, List.length_eq_zero_iff, List.filter_eq_nil_iff]
      intro t ht hboth
      obtain ⟨hreq, hvalid⟩ := Bool.and_eq_true_iff.mp hboth
      rw [hspaced t (List.Ico.mem.mp ht).1 hreq] at hvalid
      cases hvalid
    have hcount := h.count_eq hT
    omega

theorem answers_iff (h : Responder request ready valid f) (hdata : Registers request answer data f) :
    (∀ T, f ≤ T → answers ready valid data f T = during request answer f T) ↔
      Spaced request valid f := by
  refine ⟨fun hall => h.counts_iff.mp fun T hT => ?_, fun hspaced T hT => h.answers_eq hdata hspaced hT⟩
  rw [← length_answers ready valid data, hall T hT, length_during]

/-- The data of an answer that waits does not change. -/
theorem data_of_stalled (h : Responder request ready valid f)
    (hdata : Registers request answer data f) (hspaced : Spaced request valid f) {t : ℕ}
    (ht : f ≤ t) (hvalid : valid t = true) (hready : ready t = false) :
    valid (t + 1) = true ∧ data (t + 1) = data t := by
  refine ⟨h.next_of_stalled ht hvalid hready, ?_⟩
  cases hreq : request t with
  | false => rw [hdata t ht, hreq, if_neg Bool.false_ne_true]
  | true =>
    have hempty := hspaced t ht hreq
    rw [hvalid] at hempty
    cases hempty

end Responder

end Clocked
