-- SUMMARY: Loops that need not return: their results, the rule for total correctness, and the invariants of loops that go on for ever.
import Mathlib.Init

/-!
# While loops

A pass of a loop goes on with a state or leaves with a result. A loop returns
what some number of passes leaves with. So it returns nothing when it never
leaves.
-/

namespace WhileLoop

universe u v

variable {σ : Type u} {α : Type v} (pass : σ → σ ⊕ α)

/-- The result of a loop within so many passes. -/
def run : Nat → σ → Option α
  | 0, _ => none
  | fuel + 1, s =>
    match pass s with
    | .inl s' => run fuel s'
    | .inr a => some a

def Returns (s : σ) (a : α) : Prop := ∃ fuel, run pass fuel s = some a

variable {pass} {s s' : σ} {a b : α}

theorem run_succ_of_inl (h : pass s = .inl s') (fuel : Nat) :
    run pass (fuel + 1) s = run pass fuel s' := by
  rw [run, h]

theorem run_succ_of_inr (h : pass s = .inr a) (fuel : Nat) : run pass (fuel + 1) s = some a := by
  rw [run, h]

theorem returns_of_inr (h : pass s = .inr a) : Returns pass s a := ⟨1, run_succ_of_inr h 0⟩

/-- A pass that goes on does not change the result. -/
theorem returns_of_inl (h : pass s = .inl s') (hreturns : Returns pass s' a) : Returns pass s a := by
  obtain ⟨fuel, hfuel⟩ := hreturns
  exact ⟨fuel + 1, (run_succ_of_inl h fuel).trans hfuel⟩

/-- A loop has one result. -/
theorem Returns.unique (ha : Returns pass s a) (hb : Returns pass s b) : a = b := by
  obtain ⟨fuel, hfuel⟩ := ha
  obtain ⟨fuel', hfuel'⟩ := hb
  induction fuel generalizing s fuel' with
  | zero => exact absurd hfuel (by simp [run])
  | succ fuel ih =>
    cases fuel' with
    | zero => exact absurd hfuel' (by simp [run])
    | succ fuel' =>
      cases hpass : pass s with
      | inl s' =>
        rw [run_succ_of_inl hpass] at hfuel hfuel'
        exact ih hfuel fuel' hfuel'
      | inr c =>
        rw [run_succ_of_inr hpass] at hfuel hfuel'
        exact Option.some.inj (hfuel.symm.trans hfuel')

/-- Total correctness: an invariant that every pass keeps, a variant that it
lowers, and what holds where the loop leaves. -/
theorem returns_of_variant {I : σ → Prop} {Q : α → Prop} (variant : σ → Nat)
    (keep : ∀ s s', I s → pass s = .inl s' → I s' ∧ variant s' < variant s)
    (leave : ∀ s a, I s → pass s = .inr a → Q a) (init : I s) : ∃ a, Returns pass s a ∧ Q a := by
  generalize hn : variant s = n
  induction n using Nat.strongRecOn generalizing s with
  | ind n ih =>
    cases hpass : pass s with
    | inl s' =>
      obtain ⟨hkeep, hlower⟩ := keep s s' init hpass
      obtain ⟨a, hreturns, hQ⟩ := ih (variant s') (hn ▸ hlower) hkeep rfl
      exact ⟨a, returns_of_inl hpass hreturns, hQ⟩
    | inr a => exact ⟨a, returns_of_inr hpass, leave s a init hpass⟩

/-- An invariant under which every pass goes on keeps the loop from returning. -/
theorem not_returns_of_invariant {I : σ → Prop}
    (keep : ∀ s, I s → ∃ s', pass s = .inl s' ∧ I s') (init : I s) : ¬ Returns pass s a := by
  rintro ⟨fuel, hfuel⟩
  induction fuel generalizing s with
  | zero => exact absurd hfuel (by simp [run])
  | succ fuel ih =>
    obtain ⟨s', hpass, hkeep⟩ := keep s init
    rw [run_succ_of_inl hpass] at hfuel
    exact ih hkeep hfuel

end WhileLoop
