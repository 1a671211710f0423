-- SUMMARY: Transition systems: the states that runs reach whose steps all meet a condition, and their invariants.
import Mathlib.Init

/-!
# Transition systems

A system takes one action at a time. An action is not possible in every state,
and a run may be restricted further by a condition on the state before each
step.
-/

namespace Transition

/-- A system with its initial state; `step` is undefined where an action is not
possible. -/
structure System (σ α : Type) where
  init : σ
  step : σ → α → Option σ

namespace System

variable {σ α : Type} (sys : System σ α)

/-- The states reached by runs whose steps are all allowed. -/
inductive Reaches (Allowed : σ → α → Prop) : σ → Prop
  | init : Reaches Allowed sys.init
  | step {s s' : σ} (a : α) : Reaches Allowed s → Allowed s a → sys.step s a = some s' →
      Reaches Allowed s'

/-- The state after these actions, if they are all possible. -/
def runFrom (s : σ) : List α → Option σ
  | [] => some s
  | a :: as => (sys.step s a).bind fun s' => runFrom s' as

/-- The actions are all allowed, as long as they are possible. -/
def AllowedFrom (Allowed : σ → α → Prop) (s : σ) : List α → Prop
  | [] => True
  | a :: as => Allowed s a ∧ ∀ s' ∈ sys.step s a, AllowedFrom Allowed s' as

def decidableAllowedFrom (Allowed : σ → α → Prop) [∀ s a, Decidable (Allowed s a)] :
    (s : σ) → (as : List α) → Decidable (sys.AllowedFrom Allowed s as)
  | _, [] => inferInstanceAs (Decidable True)
  | s, a :: as =>
    have : ∀ s', Decidable (sys.AllowedFrom Allowed s' as) :=
      fun s' => decidableAllowedFrom Allowed s' as
    inferInstanceAs (Decidable (Allowed s a ∧ ∀ s' ∈ sys.step s a, sys.AllowedFrom Allowed s' as))

instance (Allowed : σ → α → Prop) [∀ s a, Decidable (Allowed s a)] (s : σ) (as : List α) :
    Decidable (sys.AllowedFrom Allowed s as) :=
  sys.decidableAllowedFrom Allowed s as

variable {sys} {Allowed : σ → α → Prop}

theorem runFrom_append {s s' : σ} {as : List α} (h : sys.runFrom s as = some s') (bs : List α) :
    sys.runFrom s (as ++ bs) = sys.runFrom s' bs := by
  induction as generalizing s with
  | nil =>
    obtain rfl : s = s' := Option.some.inj h
    rfl
  | cons a as ih =>
    obtain ⟨s₁, hs₁, hrest⟩ := Option.bind_eq_some_iff.mp h
    rw [List.cons_append, System.runFrom, hs₁, Option.bind_some, ih hrest]

/-- What holds at first and is kept by every allowed step holds in every state reached. -/
theorem Reaches.invariant {P : σ → Prop} (hinit : P sys.init)
    (hstep : ∀ s a s', P s → Allowed s a → sys.step s a = some s' → P s') {s : σ}
    (h : sys.Reaches Allowed s) : P s := by
  induction h with
  | init => exact hinit
  | step a _ hallowed hs ih => exact hstep _ a _ ih hallowed hs

theorem Reaches.runFrom {s s' : σ} {as : List α} (h : sys.Reaches Allowed s)
    (hallowed : sys.AllowedFrom Allowed s as) (hrun : sys.runFrom s as = some s') :
    sys.Reaches Allowed s' := by
  induction as generalizing s with
  | nil =>
    obtain rfl : s = s' := Option.some.inj hrun
    exact h
  | cons a as ih =>
    obtain ⟨s₁, hs₁, hrest⟩ := Option.bind_eq_some_iff.mp hrun
    exact ih (h.step a hallowed.1 hs₁) (hallowed.2 s₁ hs₁) hrest

end System

end Transition
