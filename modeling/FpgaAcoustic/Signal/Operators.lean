-- SUMMARY: Linear shift-invariant operators on discrete-time signals: delays, differences, moving sums, running sums, decimation, and the cascades built from them.
import Mathlib.Algebra.Ring.GeomSum
import Mathlib.Algebra.Group.Hom.End
import Mathlib.Algebra.BigOperators.Pi
import Mathlib.Algebra.Order.BigOperators.Group.Finset
import Mathlib.Data.Int.Lemmas
import Mathlib.Tactic.Ring

/-!
# Signal operators

A signal takes a value of a commutative group at every integer time. Delays,
differences and moving sums are endomorphisms of the group of signals, so the
ring of endomorphisms carries the algebra: a moving sum is a geometric sum in
the unit delay, and a difference over `r` steps is the moving sum of the unit
difference. Decimation does not commute with the delay; it exchanges `r` delays
before it for one delay after it.
-/

namespace Signal

open Finset

variable {G : Type*} [AddCommGroup G]

private theorem mul_apply (a b : AddMonoid.End (ℤ → G)) (f : ℤ → G) : (a * b) f = a (b f) := rfl

/-! ## Delay and difference -/

/-- The signal one time unit later. -/
def delay : AddMonoid.End (ℤ → G) where
  toFun f k := f (k - 1)
  map_zero' := rfl
  map_add' _ _ := rfl

/-- The difference of consecutive values. -/
def diff : AddMonoid.End (ℤ → G) := 1 - delay

/-- The difference of values `r` apart. -/
def comb (r : ℕ) : AddMonoid.End (ℤ → G) := 1 - delay ^ r

@[simp] theorem delay_apply (f : ℤ → G) (k : ℤ) : delay f k = f (k - 1) := rfl

@[simp] theorem diff_apply (f : ℤ → G) (k : ℤ) : diff f k = f k - f (k - 1) := rfl

@[simp] theorem delay_pow_apply (d : ℕ) (f : ℤ → G) (k : ℤ) :
    (delay ^ d) f k = f (k - d) := by
  induction d generalizing k with
  | zero => simp
  | succ d ih =>
    rw [pow_succ', mul_apply, delay_apply, ih]
    congr 1
    push_cast
    ring

theorem diff_commute_delay : Commute (diff : AddMonoid.End (ℤ → G)) delay :=
  (Commute.one_left _).sub_left (Commute.refl _)

theorem comb_commute_delay (r : ℕ) : Commute (comb r : AddMonoid.End (ℤ → G)) delay :=
  (Commute.one_left _).sub_left (Commute.pow_self delay r)

/-! ## Moving sum -/

/-- The sum of the last `r` values. -/
def boxcar (r : ℕ) : AddMonoid.End (ℤ → G) := ∑ j ∈ range r, delay ^ j

/-- The sum of the last `r` values, as a plain function on signals. -/
def window (r : ℕ) (f : ℤ → G) : ℤ → G := fun k => ∑ j ∈ range r, f (k - j)

theorem boxcar_eq_window (r : ℕ) (f : ℤ → G) : boxcar r f = window r f := by
  induction r with
  | zero => funext k; simp [boxcar, window]
  | succ r ih =>
    funext k
    have hadd : boxcar (r + 1) f = boxcar r f + (delay ^ r) f := by
      rw [boxcar, sum_range_succ]; rfl
    rw [hadd, Pi.add_apply, ih, delay_pow_apply, window, window, sum_range_succ]

theorem boxcar_pow_eq_window (r n : ℕ) (f : ℤ → G) :
    (boxcar r ^ n) f = (window r)^[n] f := by
  induction n generalizing f with
  | zero => rfl
  | succ n ih =>
    rw [pow_succ, mul_apply, ih, boxcar_eq_window, Function.iterate_succ_apply]

/-- A difference over `r` steps is a moving sum of unit differences. -/
theorem boxcar_mul_diff (r : ℕ) : (boxcar r * diff : AddMonoid.End (ℤ → G)) = comb r :=
  geom_sum_mul_neg delay r

theorem boxcar_commute_delay (r : ℕ) :
    Commute (boxcar r : AddMonoid.End (ℤ → G)) delay :=
  Commute.sum_left _ _ _ fun j _ => Commute.pow_self delay j

theorem boxcar_commute_diff (r : ℕ) : Commute (boxcar r : AddMonoid.End (ℤ → G)) diff :=
  (Commute.one_right _).sub_right (boxcar_commute_delay r)

theorem boxcar_pow_delay_pow_apply (r n d : ℕ) (f : ℤ → G) (k : ℤ) :
    (boxcar r ^ n) ((delay ^ d) f) k = (window r)^[n] f (k - d) := by
  have hcomm : Commute ((boxcar r : AddMonoid.End (ℤ → G)) ^ n) (delay ^ d) :=
    (boxcar_commute_delay r).pow_pow n d
  rw [← mul_apply, hcomm.eq, mul_apply, delay_pow_apply, boxcar_pow_eq_window]

/-- Moving sums commute with homomorphisms of the value group. -/
theorem window_iterate_map {H : Type*} [AddCommGroup H] (φ : G →+ H) (r n : ℕ) (f : ℤ → G) :
    (window r)^[n] (φ ∘ f) = φ ∘ (window r)^[n] f := by
  have hstep : ∀ g : ℤ → G, window r (φ ∘ g) = φ ∘ window r g := by
    intro g
    funext k
    simp [window, map_sum]
  induction n generalizing f with
  | zero => rfl
  | succ n ih => rw [Function.iterate_succ_apply, hstep, ih, Function.iterate_succ_apply]

/-- Each moving sum multiplies a bound on the signal by the window length. -/
theorem abs_window_iterate_le {f : ℤ → ℤ} {b : ℤ} (hf : ∀ k, |f k| ≤ b) (r n : ℕ) :
    ∀ k, |(window r)^[n] f k| ≤ (r : ℤ) ^ n * b := by
  induction n generalizing f b with
  | zero => simpa using hf
  | succ n ih =>
    have hstep : ∀ k, |window r f k| ≤ r * b := by
      intro k
      calc |window r f k| ≤ ∑ j ∈ range r, |f (k - j)| := abs_sum_le_sum_abs _ _
        _ ≤ ∑ _j ∈ range r, b := sum_le_sum fun j _ => hf _
        _ = r * b := by simp
    intro k
    rw [Function.iterate_succ_apply]
    calc |(window r)^[n] (window r f) k| ≤ (r : ℤ) ^ n * (r * b) := ih hstep k
      _ = (r : ℤ) ^ (n + 1) * b := by ring

/-- A signal that is constant on the windows of all moving sums comes out with
the full gain. -/
theorem window_iterate_of_const {f : ℤ → ℤ} {c k : ℤ} (r n : ℕ)
    (hf : ∀ j : ℕ, j ≤ n * (r - 1) → f (k - j) = c) : (window r)^[n] f k = r ^ n * c := by
  induction n generalizing f k c with
  | zero => simpa using hf 0 (Nat.zero_le _)
  | succ n ih =>
    have hstep : ∀ j : ℕ, j ≤ n * (r - 1) → window r f (k - j) = r * c := by
      intro j hj
      calc window r f (k - j) = ∑ _i ∈ range r, c := by
            refine sum_congr rfl fun i hi => ?_
            have hi := mem_range.mp hi
            rw [Int.sub_sub, ← Nat.cast_add]
            refine hf (j + i) ?_
            rw [Nat.add_mul, Nat.one_mul]
            omega
        _ = r * c := by simp
    rw [Function.iterate_succ_apply, ih hstep]
    ring

/-- A moving sum looks back only. -/
theorem window_iterate_congr {f g : ℤ → G} {k : ℤ} (r n : ℕ) (h : ∀ j ≤ k, f j = g j) :
    (window r)^[n] f k = (window r)^[n] g k := by
  induction n generalizing f g with
  | zero => exact h k le_rfl
  | succ n ih =>
    rw [Function.iterate_succ_apply, Function.iterate_succ_apply]
    exact ih fun j hj => sum_congr rfl fun i _ => h _ (by omega)

/-! ## Signals that start at time one -/

/-- The signal is zero up to time `0`. -/
def Causal (f : ℤ → G) : Prop := ∀ k ≤ 0, f k = 0

namespace Causal

variable {f : ℤ → G}

theorem delay (h : Causal f) : Causal (delay f) := fun k hk => h (k - 1) (by omega)

theorem delay_pow (h : Causal f) (d : ℕ) : Causal ((Signal.delay ^ d) f) := by
  intro k hk
  rw [delay_pow_apply]
  exact h _ (by omega)

theorem diff (h : Causal f) : Causal (diff f) := by
  intro k hk
  rw [diff_apply, h k hk, h (k - 1) (by omega), sub_zero]

theorem window_iterate (h : Causal f) (r n : ℕ) : Causal ((window r)^[n] f) := by
  induction n generalizing f with
  | zero => exact h
  | succ n ih =>
    rw [Function.iterate_succ_apply]
    exact ih fun k hk => sum_eq_zero fun i _ => h _ (by omega)

end Causal

/-! ## Running sum

The inverse of the unit difference on causal signals. -/

/-- The sum of all values from time `1` on. -/
def accum (f : ℤ → G) : ℤ → G := fun k => ∑ j ∈ range k.toNat, f (j + 1)

theorem accum_causal (f : ℤ → G) : Causal (accum f) := by
  intro k hk
  simp [accum, Int.toNat_of_nonpos hk]

theorem accum_succ (f : ℤ → G) (k : ℕ) : accum f (k + 1) = accum f k + f (k + 1) := by
  have : ((k : ℤ) + 1).toNat = k + 1 := by omega
  simp [accum, this, sum_range_succ]

theorem diff_accum {f : ℤ → G} (h : Causal f) : diff (accum f) = f := by
  funext k
  rw [diff_apply]
  rcases le_or_gt k 0 with hk | hk
  · rw [accum_causal f k hk, accum_causal f (k - 1) (by omega), h k hk, sub_zero]
  · obtain ⟨n, rfl⟩ : ∃ n : ℕ, k = n + 1 := ⟨(k - 1).toNat, by omega⟩
    rw [accum_succ, add_sub_cancel_right, add_sub_cancel_left]

/-! ## Integrator chains

Every stage sums what its predecessor held one step earlier, as registers in a
row do. -/

/-- The output of stage `i` of a chain of registered integrators. -/
def integrators (f : ℤ → G) : ℕ → ℤ → G
  | 0 => accum f
  | i + 1 => accum (delay (integrators f i))

theorem integrators_causal (f : ℤ → G) (i : ℕ) : Causal (integrators f i) := by
  cases i with
  | zero => exact accum_causal f
  | succ i => exact accum_causal _

theorem diff_pow_integrators {f : ℤ → G} (h : Causal f) (i : ℕ) :
    (diff ^ (i + 1)) (integrators f i) = (delay ^ i) f := by
  induction i with
  | zero => simpa [integrators] using diff_accum h
  | succ i ih =>
    calc (diff ^ (i + 1 + 1)) (integrators f (i + 1))
        = (diff ^ (i + 1)) (diff (accum (delay (integrators f i)))) := by
          rw [pow_succ, mul_apply]; rfl
      _ = (diff ^ (i + 1)) (delay (integrators f i)) := by
          rw [diff_accum (integrators_causal f i).delay]
      _ = delay ((diff ^ (i + 1)) (integrators f i)) := by
          rw [← mul_apply, (diff_commute_delay.pow_left (i + 1)).eq, mul_apply]
      _ = (delay ^ (i + 1)) f := by
          rw [ih, pow_succ' delay, mul_apply]

/-- As many differences over `r` steps undo a chain of integrators up to the
moving sums. -/
theorem comb_pow_integrators {f : ℤ → G} (h : Causal f) (r i : ℕ) :
    (comb r ^ (i + 1)) (integrators f i) = (boxcar r ^ (i + 1)) ((delay ^ i) f) := by
  rw [← boxcar_mul_diff, (boxcar_commute_diff r).mul_pow, mul_apply, diff_pow_integrators h]

/-! ## Decimation -/

/-- Every `r`-th value. -/
def decimate (r : ℕ) : AddMonoid.End (ℤ → G) where
  toFun f m := f (r * m)
  map_zero' := rfl
  map_add' _ _ := rfl

@[simp] theorem decimate_apply (r : ℕ) (f : ℤ → G) (m : ℤ) : decimate r f m = f (r * m) := rfl

theorem Causal.decimate {f : ℤ → G} (h : Causal f) (r : ℕ) : Causal (decimate r f) := by
  intro m hm
  exact h _ (mul_nonpos_of_nonneg_of_nonpos (Int.natCast_nonneg r) hm)

/-- A delay after the decimation is `r` delays before it. -/
theorem delay_mul_decimate (r : ℕ) :
    SemiconjBy (decimate r : AddMonoid.End (ℤ → G)) (delay ^ r) delay := by
  ext f m
  simp only [mul_apply, delay_apply, decimate_apply, delay_pow_apply]
  congr 1
  ring

/-- A difference after the decimation is a difference over `r` steps before it. -/
theorem diff_mul_decimate (r : ℕ) :
    SemiconjBy (decimate r : AddMonoid.End (ℤ → G)) (comb r) diff :=
  (SemiconjBy.one_right _).sub_right (delay_mul_decimate r)

/-! ## Comb chains

Every stage takes the unit difference of what its predecessor held one step
earlier. -/

/-- The output of stage `j` of a chain of registered combs. -/
def combs (f : ℤ → G) : ℕ → ℤ → G
  | 0 => diff f
  | j + 1 => diff (delay (combs f j))

/-- The input of stage `j` of the chain. -/
def combInputs (f : ℤ → G) : ℕ → ℤ → G
  | 0 => f
  | j + 1 => delay (combs f j)

theorem combs_apply (f : ℤ → G) (j : ℕ) (m : ℤ) :
    combs f j m = combInputs f j m - combInputs f j (m - 1) := by
  cases j <;> rfl

theorem Causal.combs {f : ℤ → G} (h : Causal f) (j : ℕ) : Causal (combs f j) := by
  induction j with
  | zero => exact h.diff
  | succ j ih => exact ih.delay.diff

theorem Causal.combInputs {f : ℤ → G} (h : Causal f) (j : ℕ) : Causal (combInputs f j) := by
  cases j with
  | zero => exact h
  | succ j => exact (h.combs j).delay

theorem combs_eq (f : ℤ → G) (j : ℕ) : combs f j = (delay ^ j) ((diff ^ (j + 1)) f) := by
  induction j with
  | zero => simp [combs]
  | succ j ih =>
    calc combs f (j + 1) = diff ((delay ^ (j + 1)) ((diff ^ (j + 1)) f)) := by
          rw [combs, ih, pow_succ' delay, mul_apply]
      _ = (delay ^ (j + 1)) (diff ((diff ^ (j + 1)) f)) := by
          rw [← mul_apply, (diff_commute_delay.pow_right (j + 1)).eq, mul_apply]
      _ = (delay ^ (j + 1)) ((diff ^ (j + 1 + 1)) f) := by
          rw [← mul_apply diff, ← pow_succ']

/-- A chain of integrators, decimation by `r` after `d` more delays, and as long
a chain of combs: the moving sum over `r`, as often as there are stages. -/
theorem combs_decimate_integrators {f : ℤ → G} (h : Causal f) (r d n : ℕ) (m : ℤ) :
    combs (decimate r ((delay ^ d) (integrators f n))) n m =
      (window r)^[n + 1] f (r * m - (r * n + d + n : ℕ)) := by
  have hcombs : (diff ^ (n + 1)) (decimate r ((delay ^ d) (integrators f n))) =
      decimate r ((delay ^ d) ((boxcar r ^ (n + 1)) ((delay ^ n) f))) := by
    rw [← mul_apply, ← ((diff_mul_decimate r).pow_right (n + 1)).eq, mul_apply,
      ← mul_apply (comb r ^ (n + 1)), ((comb_commute_delay r).pow_pow (n + 1) d).eq, mul_apply,
      comb_pow_integrators h]
  have htime : (r : ℤ) * (m - n) - d - n = r * m - (r * n + d + n : ℕ) := by
    push_cast
    ring
  rw [combs_eq, hcombs, delay_pow_apply, decimate_apply, delay_pow_apply,
    boxcar_pow_delay_pow_apply, htime]

end Signal
