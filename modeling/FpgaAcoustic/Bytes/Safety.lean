-- SUMMARY: Parsers that neither fail nor leave the good states, those that do on every run, and the rules for their sequences.
import FpgaAcoustic.Bytes.Parser

/-!
# Safety of parsers

Some states are good. A parser is safe if it succeeds and keeps the state good,
and it faults if it never does both. A fault is final where what follows cannot
make a bad state good again.
-/

namespace Bytes

namespace Parser

variable {σ α β : Type}

section Good

variable (Good : σ → Prop)

/-- From a good state, `p` succeeds in a good state. -/
def Safe (p : Parser σ α) : Prop := ∀ s, Good s → (p s).1 ≠ none ∧ Good (p s).2

/-- From any state, `p` fails or ends in a bad state. -/
def Faults (p : Parser σ α) : Prop := ∀ s, (p s).1 = none ∨ ¬ Good (p s).2

/-- A bad state stays bad. -/
def Stays (p : Parser σ α) : Prop := ∀ s, Good (p s).2 → Good s

variable {Good} {p : Parser σ α} {f : α → Parser σ β}

/-! ## Steps -/

theorem Safe.pure (a : α) : Safe Good (pure a) := fun _ h => ⟨Option.some_ne_none a, h⟩

theorem Stays.pure (a : α) : Stays Good (pure a) := fun _ h => h

theorem Stays.lift (o : Option α) : Stays Good (lift o) := fun _ h => h

theorem Faults.lift_none : Faults Good (lift (none : Option α)) := fun _ => .inl rfl

theorem lift_some_bind (a : α) (f : α → Parser σ β) : (lift (some a)).bind f = f a := rfl

theorem lift_none_bind (f : α → Parser σ β) : (lift none).bind f = lift none := rfl

/-! ## Composition -/

theorem Safe.bind (hp : Safe Good p) (hf : ∀ a, Safe Good (f a)) : Safe Good (p.bind f) := by
  intro s hs
  obtain ⟨hsome, hgood⟩ := hp s hs
  rcases hrun : p s with ⟨_ | a, s'⟩
  · exact absurd (by rw [hrun]) hsome
  · rw [hrun] at hgood
    rw [bind_some hrun]
    exact hf a s' hgood

theorem Stays.bind (hp : Stays Good p) (hf : ∀ a, Stays Good (f a)) : Stays Good (p.bind f) := by
  intro s h
  have hback := hp s
  rcases hrun : p s with ⟨_ | a, s'⟩
  · rw [bind_none hrun] at h
    rw [hrun] at hback
    exact hback h
  · rw [bind_some hrun] at h
    rw [hrun] at hback
    exact hback (hf a s' h)

/-- What follows a fault does not repair it. -/
theorem Faults.bind (hp : Faults Good p) (hf : ∀ a, Stays Good (f a)) :
    Faults Good (p.bind f) := by
  intro s
  have hfault := hp s
  rcases hrun : p s with ⟨_ | a, s'⟩
  · rw [bind_none hrun]
    exact .inl rfl
  · rw [hrun] at hfault
    rw [bind_some hrun]
    exact .inr fun hgood => hfault.resolve_left (Option.some_ne_none a) (hf a s' hgood)

/-- What comes before a fault does not prevent it. -/
theorem Faults.of_bind (hf : ∀ a, Faults Good (f a)) : Faults Good (p.bind f) := by
  intro s
  rcases hrun : p s with ⟨_ | a, s'⟩
  · rw [bind_none hrun]
    exact .inl rfl
  · rw [bind_some hrun]
    exact hf a s'

theorem Safe.map (hp : Safe Good p) (g : α → β) : Safe Good (p.map g) :=
  hp.bind fun a => Safe.pure (g a)

theorem Stays.map (hp : Stays Good p) (g : α → β) : Stays Good (p.map g) :=
  hp.bind fun a => Stays.pure (g a)

theorem Faults.map (hp : Faults Good p) (g : α → β) : Faults Good (p.map g) :=
  hp.bind fun a => Stays.pure (g a)

/-! ## Sequences -/

variable {ps : List (Parser σ (List α))}

theorem Safe.seq (h : ∀ p ∈ ps, Safe Good p) : Safe Good (seq ps) := by
  induction ps with
  | nil => exact Safe.pure []
  | cons p ps ih =>
    obtain ⟨hp, hps⟩ := List.forall_mem_cons.mp h
    exact hp.bind fun xs => (ih hps).map (xs ++ ·)

theorem Stays.seq (h : ∀ p ∈ ps, Stays Good p) : Stays Good (seq ps) := by
  induction ps with
  | nil => exact Stays.pure []
  | cons p ps ih =>
    obtain ⟨hp, hps⟩ := List.forall_mem_cons.mp h
    exact hp.bind fun xs => (ih hps).map (xs ++ ·)

/-- A sequence faults where one of its parsers does. -/
theorem Faults.seq (hstays : ∀ p ∈ ps, Stays Good p) (h : ∃ p ∈ ps, Faults Good p) :
    Faults Good (seq ps) := by
  induction ps with
  | nil => exact absurd h (by simp)
  | cons p ps ih =>
    obtain ⟨-, hps⟩ := List.forall_mem_cons.mp hstays
    obtain ⟨q, hmem, hq⟩ := h
    rcases List.mem_cons.mp hmem with rfl | hmem
    · exact hq.bind fun xs => (Stays.seq hps).map (xs ++ ·)
    · exact Faults.of_bind fun xs => (ih hps ⟨q, hmem, hq⟩).map (xs ++ ·)

/-! ## Conditions -/

variable (Good) in
/-- `P` decides whether `p` is safe. -/
structure SafeIff (p : Parser σ α) (P : Prop) : Prop where
  stays : Stays Good p
  safe : P → Safe Good p
  faults : ¬ P → Faults Good p

variable {P : Prop}

theorem SafeIff.lift_none : SafeIff Good (lift (none : Option α)) False :=
  ⟨Stays.lift none, False.elim, fun _ => Faults.lift_none⟩

theorem SafeIff.congr {Q : Prop} (h : SafeIff Good p P) (hiff : P ↔ Q) : SafeIff Good p Q :=
  ⟨h.stays, fun hq => h.safe (hiff.mpr hq), fun hq => h.faults fun hp => hq (hiff.mp hp)⟩

theorem SafeIff.map (h : SafeIff Good p P) (g : α → β) : SafeIff Good (p.map g) P :=
  ⟨h.stays.map g, fun hp => (h.safe hp).map g, fun hp => (h.faults hp).map g⟩

theorem SafeIff.seq {γ : Type} {p : γ → Parser σ (List α)} {P : γ → Prop} {gs : List γ}
    (h : ∀ g ∈ gs, SafeIff Good (p g) (P g)) :
    SafeIff Good (seq (gs.map p)) (∀ g ∈ gs, P g) := by
  have hstays : ∀ q ∈ gs.map p, Stays Good q := by
    intro q hq
    obtain ⟨g, hg, rfl⟩ := List.mem_map.mp hq
    exact (h g hg).stays
  refine ⟨Stays.seq hstays, fun hall => Safe.seq fun q hq => ?_, fun hnot => ?_⟩
  · obtain ⟨g, hg, rfl⟩ := List.mem_map.mp hq
    exact (h g hg).safe (hall g hg)
  · push Not at hnot
    obtain ⟨g, hg, hfault⟩ := hnot
    exact Faults.seq hstays ⟨p g, List.mem_map_of_mem hg, (h g hg).faults hfault⟩

end Good

end Parser

end Bytes
