-- SUMMARY: Runs of synchronous machines with one input per clock cycle, and the pulse trains that gate their registers.
import Mathlib.Order.Lattice.Nat
import Mathlib.Data.List.Intervals
import Mathlib.Tactic.Common

/-!
# Clocked runs

A synchronous machine is a step function on its registers. A run gives the
state in every clock cycle: the edge that ends cycle `t` applies the step to the
state and to the inputs of cycle `t`. A Verilog non-blocking assignment reads
the state before the edge, so a module is one such step.

A pulse train is a boolean per cycle. Counting its pulses turns cycles into
sample numbers.
-/

namespace Clocked

universe u v

variable {σ : Type u} {ι : Type v}

/-- The state in each cycle of a run that is in state `s` in cycle `0`. -/
def run (step : σ → ι → σ) (s : σ) (inp : ℕ → ι) : ℕ → σ
  | 0 => s
  | t + 1 => step (run step s inp t) (inp t)

@[simp] theorem run_zero (step : σ → ι → σ) (s : σ) (inp : ℕ → ι) :
    run step s inp 0 = s := rfl

theorem run_succ (step : σ → ι → σ) (s : σ) (inp : ℕ → ι) (t : ℕ) :
    run step s inp (t + 1) = step (run step s inp t) (inp t) := rfl

/-- An invariant that may mention the cycle holds from cycle `t₀` on, up to a
horizon, when it holds in `t₀` and every edge in between keeps it. -/
theorem run_invariant {step : σ → ι → σ} {s : σ} {inp : ℕ → ι} {t₀ T : ℕ}
    {I : ℕ → σ → Prop} (init : I t₀ (run step s inp t₀))
    (keep : ∀ t, t₀ ≤ t → t < T → I t (run step s inp t) →
      I (t + 1) (step (run step s inp t) (inp t))) :
    ∀ t, t₀ ≤ t → t ≤ T → I t (run step s inp t) := by
  intro t ht
  induction t, ht using Nat.le_induction with
  | base => exact fun _ => init
  | succ t ht ih =>
    intro hT
    exact keep t ht hT (ih (Nat.le_of_succ_le hT))

/-! ## Resets -/

/-- A reset line that is high in cycle `0` and low from then on. -/
structure ResetFirst (rst : ℕ → Bool) : Prop where
  rst_zero : rst 0 = true
  rst_succ : ∀ t, rst (t + 1) = false

theorem ResetFirst.low {rst : ℕ → Bool} (h : ResetFirst rst) {t : ℕ} (ht : 1 ≤ t) :
    rst t = false := by
  obtain ⟨t, rfl⟩ := Nat.exists_eq_add_of_le' ht
  exact h.rst_succ t

/-- After the reset a gate that the reset closes is open. -/
theorem ResetFirst.and_not {rst : ℕ → Bool} (h : ResetFirst rst) (v : Bool) {t : ℕ} (ht : 1 ≤ t) :
    (v && !rst t) = v := by
  rw [h.low ht, Bool.not_false, Bool.and_true]

/-- A line that is active low is high after the reset. -/
theorem ResetFirst.high {rstn : ℕ → Bool} (h : ResetFirst fun t => !rstn t) {t : ℕ} (ht : 1 ≤ t) :
    rstn t = true := by
  have hlow := h.low ht
  rwa [Bool.not_eq_false'] at hlow

/-! ## Pulse trains -/

/-- The number of cycles before `t` in which `v` is high. -/
def pulses (v : ℕ → Bool) : ℕ → ℕ
  | 0 => 0
  | t + 1 => pulses v t + (v t).toNat

@[simp] theorem pulses_zero (v : ℕ → Bool) : pulses v 0 = 0 := rfl

theorem pulses_succ_of_true {v : ℕ → Bool} {t : ℕ} (h : v t = true) :
    pulses v (t + 1) = pulses v t + 1 := by
  simp [pulses, h]

theorem pulses_succ_of_false {v : ℕ → Bool} {t : ℕ} (h : v t = false) :
    pulses v (t + 1) = pulses v t := by
  simp [pulses, h]

theorem pulses_le_succ (v : ℕ → Bool) (t : ℕ) : pulses v t ≤ pulses v (t + 1) :=
  Nat.le_add_right _ _

theorem pulses_mono (v : ℕ → Bool) : Monotone (pulses v) :=
  monotone_nat_of_le_succ (pulses_le_succ v)

/-- A cycle span without a pulse leaves the count alone. -/
theorem pulses_eq_of_quiet {v : ℕ → Bool} {t u : ℕ} (htu : t ≤ u)
    (h : ∀ c, t ≤ c → c < u → v c = false) : pulses v u = pulses v t := by
  induction u, htu using Nat.le_induction with
  | base => rfl
  | succ u htu ih =>
    rw [pulses_succ_of_false (h u htu (Nat.lt_succ_self u))]
    exact ih fun c hc hcu => h c hc (Nat.lt_succ_of_lt hcu)

/-! ## Events -/

section During

variable {α : Type u} {β : Type v} {v : ℕ → Bool} {x y : ℕ → α} {f T : ℕ}

/-- The values of `x` in the cycles `f .. T - 1` in which `v` is high, in order. -/
def during (v : ℕ → Bool) (x : ℕ → α) (f T : ℕ) : List α := ((List.Ico f T).filter v).map x

@[simp] theorem during_self (v : ℕ → Bool) (x : ℕ → α) (f : ℕ) : during v x f f = [] := by
  simp [during]

theorem during_succ_of_true (hf : f ≤ T) (h : v T = true) :
    during v x f (T + 1) = during v x f T ++ [x T] := by
  simp [during, List.Ico.succ_top hf, h]

theorem during_succ_of_false (hf : f ≤ T) (h : v T = false) :
    during v x f (T + 1) = during v x f T := by
  simp [during, List.Ico.succ_top hf, h]

/-- Only the cycles in which `v` is high count. -/
theorem during_congr (h : ∀ t, f ≤ t → t < T → v t = true → x t = y t) :
    during v x f T = during v y f T := by
  refine List.map_congr_left ?_
  intro t ht
  rw [List.mem_filter, List.Ico.mem] at ht
  exact h t ht.1.1 ht.1.2 ht.2

theorem during_map (g : α → β) : during v (g ∘ x) f T = (during v x f T).map g := by
  simp [during]

theorem during_append {m : ℕ} (hfm : f ≤ m) (hmT : m ≤ T) :
    during v x f T = during v x f m ++ during v x m T := by
  rw [during, ← List.Ico.append_consecutive hfm hmT, List.filter_append, List.map_append]
  rfl

theorem during_eq_nil (h : ∀ t, f ≤ t → t < T → v t = false) : during v x f T = [] := by
  rw [during, List.map_eq_nil_iff, List.filter_eq_nil_iff]
  intro t ht
  rw [List.Ico.mem] at ht
  rw [h t ht.1 ht.2]
  exact Bool.false_ne_true

/-- One cycle in which `v` is high gives one value. -/
theorem during_eq_singleton {t : ℕ} (hft : f ≤ t) (htT : t < T) (ht : v t = true)
    (h : ∀ u, f ≤ u → u < T → u ≠ t → v u = false) : during v x f T = [x t] := by
  rw [during_append hft htT.le, during_append (Nat.le_succ t) htT,
    during_eq_nil fun u hu hut => h u hu (hut.trans htT) hut.ne,
    during_succ_of_true (le_refl t) ht, during_self,
    during_eq_nil fun u hu huT => h u (hft.trans (Nat.le_of_succ_le hu)) huT (Nat.ne_of_gt hu)]
  rfl

end During

/-! ## Ticks -/

/-- What changes only with every `period`-th cycle has changed as often as whole
periods have passed. -/
theorem iterate_of_ticks {α : Type u} {f : α → α} {x : ℕ → α} {tick : ℕ → Bool} {t period : ℕ}
    (hstep : ∀ u, t ≤ u → x (u + 1) = if tick u then f (x u) else x u)
    (htick : ∀ k, tick (t + k) = decide (period ∣ k + 1)) (k : ℕ) :
    x (t + k) = f^[k / period] (x t) := by
  induction k with
  | zero => rw [Nat.zero_div]; rfl
  | succ k ih =>
    rw [← Nat.add_assoc, hstep _ (Nat.le_add_right t k), htick, ih, Nat.succ_div]
    by_cases hdvd : period ∣ k + 1
    · simp only [hdvd, decide_true, if_true, Function.iterate_succ_apply']
    · simp only [hdvd, decide_false, Bool.false_eq_true, if_false, Nat.add_zero]

/-! ## Cadences -/

/-- From cycle `1` on, pulses of one cycle come at one distance, for ever. -/
structure Cadence (v : ℕ → Bool) (period : ℕ) : Prop where
  starts : ∃ t, 1 ≤ t ∧ v t = true
  oneCycle : ∀ t, 1 ≤ t → v t = true → v (t + 1) = false
  next : ∀ t, 1 ≤ t → v t = true → v (t + period) = true
  between : ∀ t k, 1 ≤ t → v t = true → 0 < k → k < period → v (t + k) = false

/-- The pulses in cycle `first` and in every `period`-th cycle after it. -/
def train (first period t : ℕ) : Bool := decide (first ≤ t ∧ period ∣ t - first)

theorem train_cadence {first period : ℕ} (hfirst : 1 ≤ first) (hperiod : 2 ≤ period) :
    Cadence (train first period) period := by
  have hquiet : ∀ t k, train first period t = true → 0 < k → k < period →
      train first period (t + k) = false := by
    intro t k ht hpos hlt
    obtain ⟨hle, hdvd⟩ := of_decide_eq_true ht
    refine decide_eq_false fun ⟨_, hdvd'⟩ => ?_
    rw [Nat.sub_add_comm hle] at hdvd'
    exact absurd (Nat.le_of_dvd hpos ((Nat.dvd_add_right hdvd).mp hdvd')) (by omega)
  refine ⟨⟨first, hfirst, ?_⟩, fun t _ ht => hquiet t 1 ht Nat.one_pos hperiod, fun t _ ht => ?_,
    fun t k _ ht => hquiet t k ht⟩
  · exact decide_eq_true ⟨le_refl first, by rw [Nat.sub_self]; exact Nat.dvd_zero period⟩
  · obtain ⟨hle, hdvd⟩ := of_decide_eq_true ht
    refine decide_eq_true ⟨hle.trans (Nat.le_add_right t period), ?_⟩
    rw [Nat.sub_add_comm hle]
    exact Nat.dvd_add hdvd (Nat.dvd_refl period)

/-! ## Spans -/

section Span

variable {α : Type u} {x : ℕ → α} {t n : ℕ} {a : α}

/-- The values of `x` in the `n` cycles from `t` on. -/
def span (x : ℕ → α) (t n : ℕ) : List α := (List.range n).map fun k => x (t + k)

theorem span_add (x : ℕ → α) (t m n : ℕ) : span x t (m + n) = span x t m ++ span x (t + m) n := by
  simp [span, List.range_add, Nat.add_assoc]

theorem span_eq_replicate (h : ∀ k, k < n → x (t + k) = a) : span x t n = List.replicate n a := by
  rw [List.eq_replicate_iff]
  refine ⟨by simp [span], ?_⟩
  simp only [span, List.mem_map, List.mem_range]
  rintro b ⟨k, hk, rfl⟩
  exact h k hk

end Span

end Clocked
