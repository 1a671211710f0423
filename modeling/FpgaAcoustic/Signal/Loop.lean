-- SUMMARY: Counted loops: the invariant rule, the loops that sum and that update an array entry by entry, and the scan for the first maximum.
import Mathlib.Algebra.BigOperators.Fin
import Mathlib.Algebra.Order.Group.Defs

/-!
# Counted loops

A loop over `0 .. n - 1` is a `Fin.foldl`. An invariant indexed by the number of
passes made carries every property of it.
-/

namespace Loop

universe u

variable {α : Type u} {n : ℕ}

/-- The invariant rule. -/
theorem foldl_invariant {f : α → Fin n → α} {a : α} {I : ℕ → α → Prop} (init : I 0 a)
    (keep : ∀ (i : Fin n) (b : α), I i b → I (i + 1) (f b i)) : I n (Fin.foldl n f a) := by
  induction n with
  | zero => simpa using init
  | succ n ih =>
    rw [Fin.foldl_succ_last]
    exact keep (Fin.last n) _ (ih fun i b hb => keep i.castSucc b hb)

/-- A loop that adds. -/
theorem foldl_add [AddCommMonoid α] (g : Fin n → α) (a : α) :
    Fin.foldl n (fun s i => s + g i) a = a + ∑ i, g i := by
  induction n with
  | zero => simp
  | succ n ih => rw [Fin.foldl_succ_last, ih, Fin.sum_univ_castSucc, add_assoc]

/-- A loop that rewrites each entry of an array once. -/
theorem foldl_update (g : Fin n → α → α) (a : Fin n → α) :
    Fin.foldl n (fun s i => Function.update s i (g i (s i))) a = fun i => g i (a i) := by
  have hinv := foldl_invariant (n := n)
    (f := fun (s : Fin n → α) i => Function.update s i (g i (s i))) (a := a)
    (I := fun k s => ∀ i, s i = if i.val < k then g i (a i) else a i) ?_ ?_
  · funext i
    rw [hinv i, if_pos i.isLt]
  · intro i
    simp
  · intro k s hs i
    by_cases hik : i = k
    · subst hik
      rw [Function.update_self, hs, if_neg (lt_irrefl _), if_pos (Nat.lt_succ_self _)]
    · have hval : i.val ≠ k.val := fun h => hik (Fin.ext h)
      rw [Function.update_of_ne hik, hs]
      exact if_congr (by omega) rfl rfl

/-! ## First maximum -/

section Max

variable [LinearOrder α]

/-- `d` is the first index of a maximal value. -/
def IsFirstMax (p : Fin n → α) (d : Fin n) : Prop :=
  (∀ e, p e ≤ p d) ∧ ∀ e < d, p e < p d

theorem IsFirstMax.unique {p : Fin n → α} {d e : Fin n} (hd : IsFirstMax p d)
    (he : IsFirstMax p e) : d = e := by
  rcases lt_trichotomy d e with hlt | heq | hlt
  · exact absurd (hd.1 e) (not_le.mpr (he.2 d hlt))
  · exact heq
  · exact absurd (he.1 d) (not_le.mpr (hd.2 e hlt))

/-- The scan keeps the best index and its value, and replaces them by a strictly
better one. -/
def better (p : Fin n → α) (best : Fin n × α) (i : Fin n) : Fin n × α :=
  if best.2 < p i then (i, p i) else best

/-- A scan from index `0` and value `0` finds the first maximum of values that
are not negative. -/
theorem foldl_better [Zero α] [NeZero n] {p : Fin n → α} (hp : ∀ i, 0 ≤ p i) :
    IsFirstMax p (Fin.foldl n (better p) (0, 0)).1 := by
  have hinv := foldl_invariant (n := n) (f := better p) (a := (0, 0))
    (I := fun k best => (∀ e : Fin n, e.val < k → p e ≤ best.2) ∧ best.2 ≤ p best.1 ∧
      ∀ e < best.1, p e < best.2) ?_ ?_
  · obtain ⟨hall, hbest, hfirst⟩ := hinv
    exact ⟨fun e => (hall e e.isLt).trans hbest, fun e he => (hfirst e he).trans_le hbest⟩
  · refine ⟨?_, hp 0, ?_⟩
    · intro e he
      exact absurd he (Nat.not_lt_zero _)
    · intro e he
      exact absurd he (Nat.not_lt_zero _)
  · rintro i ⟨d, v⟩ ⟨hall, hbest, hfirst⟩
    unfold better
    split
    · rename_i hlt
      have hle : ∀ e : Fin n, e < i → p e < p i := fun e he => (hall e he).trans_lt hlt
      refine ⟨?_, le_rfl, hle⟩
      intro e he
      rcases Nat.lt_succ_iff_lt_or_eq.mp he with he | he
      · exact (hle e he).le
      · rw [Fin.ext he]
    · rename_i hge
      refine ⟨?_, hbest, hfirst⟩
      intro e he
      rcases Nat.lt_succ_iff_lt_or_eq.mp he with he | he
      · exact hall e he
      · rw [Fin.ext he]
        exact not_lt.mp hge

end Max

end Loop
