-- SUMMARY: Threads that work on shared objects, each under the mutex of the object: every run looks like one in which sections do not overlap.
import Mathlib.Logic.Function.Basic
import Mathlib.Logic.Relation
import Mathlib.Tactic.SplitIfs

/-!
# Monitors

Several threads use several objects, and a thread only touches an object while it
holds the object's mutex. Sections of different objects overlap, and a section is
interrupted at any point. The states between whole sections explain all others:
a section that has begun is one that the explaining state has yet to take.
-/

namespace Transition

/-- What threads do outside of the sections, and in those of an object. -/
structure Monitor (κ σ τ : Type) where
  outside : τ → τ → Prop
  /-- With the mutex of this object. -/
  enter : κ → τ → τ → Prop
  inside : κ → σ × τ → σ × τ → Prop
  leave : τ → τ → Prop

namespace Monitor

open Relation

/-- The objects and the threads. -/
structure Whole (ι κ σ τ : Type) where
  object : κ → σ
  thread : ι → τ

/-- With the mutex that each thread holds. -/
structure State (ι κ σ τ : Type) extends Whole ι κ σ τ where
  held : ι → Option κ

variable {ι κ σ τ : Type}

/-- No thread holds a mutex. -/
def Whole.free (w : Whole ι κ σ τ) : State ι κ σ τ := { w with held := fun _ => none }

def State.Unlocked (s : State ι κ σ τ) (k : κ) : Prop := ∀ c, s.held c ≠ some k

/-- The first steps of a section. -/
def Begins (m : Monitor κ σ τ) (k : κ) (p q : σ × τ) : Prop :=
  ∃ t, m.enter k p.2 t ∧ ReflTransGen (m.inside k) (p.1, t) q

/-- A whole section. -/
def Section (m : Monitor κ σ τ) (k : κ) (p q : σ × τ) : Prop :=
  ∃ t, m.Begins k p (q.1, t) ∧ m.leave t q.2

/-- The state is that of `w` but for the sections that have begun. -/
structure Explains (m : Monitor κ σ τ) (s : State ι κ σ τ) (w : Whole ι κ σ τ) : Prop where
  object : ∀ k, s.Unlocked k → s.object k = w.object k
  thread : ∀ c, s.held c = none → s.thread c = w.thread c
  begins : ∀ c k, s.held c = some k →
    m.Begins k (w.object k, w.thread c) (s.object k, s.thread c)
  exclusive : ∀ c d k, s.held c = some k → s.held d = some k → c = d

theorem explains_free {m : Monitor κ σ τ} (w : Whole ι κ σ τ) : m.Explains w.free w where
  object _ _ := rfl
  thread _ _ := rfl
  begins _ _ h := nomatch h
  exclusive _ _ _ h := nomatch h

namespace Whole

variable [DecidableEq ι]

def setThread (w : Whole ι κ σ τ) (c : ι) (t : τ) : Whole ι κ σ τ :=
  { w with thread := Function.update w.thread c t }

/-- After a step on an object. -/
def set [DecidableEq κ] (w : Whole ι κ σ τ) (k : κ) (c : ι) (p : σ × τ) : Whole ι κ σ τ :=
  ⟨Function.update w.object k p.1, Function.update w.thread c p.2⟩

@[simp] theorem object_setThread (w : Whole ι κ σ τ) (c : ι) (t : τ) :
    (w.setThread c t).object = w.object := rfl

@[simp] theorem thread_setThread (w : Whole ι κ σ τ) (c : ι) (t : τ) :
    (w.setThread c t).thread = Function.update w.thread c t := rfl

@[simp] theorem object_set [DecidableEq κ] (w : Whole ι κ σ τ) (k : κ) (c : ι) (p : σ × τ) :
    (w.set k c p).object = Function.update w.object k p.1 := rfl

@[simp] theorem thread_set [DecidableEq κ] (w : Whole ι κ σ τ) (k : κ) (c : ι) (p : σ × τ) :
    (w.set k c p).thread = Function.update w.thread c p.2 := rfl

end Whole

/-! ## Steps -/

section Steps

variable [DecidableEq ι] [DecidableEq κ] (m : Monitor κ σ τ)

/-- The steps of threads that lock and unlock. -/
inductive Step : State ι κ σ τ → State ι κ σ τ → Prop
  | outside {s : State ι κ σ τ} {c : ι} {t : τ} : s.held c = none → m.outside (s.thread c) t →
      Step s { s.setThread c t with held := s.held }
  | lock {s : State ι κ σ τ} {c : ι} {k : κ} {t : τ} : s.held c = none → s.Unlocked k →
      m.enter k (s.thread c) t →
      Step s { s.setThread c t with held := Function.update s.held c (some k) }
  | inside {s : State ι κ σ τ} {c : ι} {k : κ} {p : σ × τ} : s.held c = some k →
      m.inside k (s.object k, s.thread c) p → Step s { s.set k c p with held := s.held }
  | unlock {s : State ι κ σ τ} {c : ι} {k : κ} {t : τ} : s.held c = some k →
      m.leave (s.thread c) t →
      Step s { s.setThread c t with held := Function.update s.held c none }

/-- The steps when sections are not interrupted. -/
inductive Atomic : Whole ι κ σ τ → Whole ι κ σ τ → Prop
  | outside {w : Whole ι κ σ τ} {c : ι} {t : τ} : m.outside (w.thread c) t →
      Atomic w (w.setThread c t)
  | whole {w : Whole ι κ σ τ} {c : ι} {k : κ} {p : σ × τ} :
      m.Section k (w.object k, w.thread c) p → Atomic w (w.set k c p)

variable {m} {s s' : State ι κ σ τ} {w : Whole ι κ σ τ}

/-- A section is taken when it ends, and other steps of sections are not seen. -/
theorem Explains.step (h : m.Explains s w) (hstep : m.Step s s') :
    ∃ w', ReflTransGen m.Atomic w w' ∧ m.Explains s' w' := by
  cases hstep with
  | @outside c t hheld hout =>
    refine ⟨w.setThread c t, .single (.outside (h.thread c hheld ▸ hout)), ?_⟩
    refine ⟨h.object, ?_, ?_, h.exclusive⟩
    · intro d hd
      rcases eq_or_ne d c with rfl | hne
      · simp
      · simpa [hne] using h.thread d hd
    · intro d k hd
      have hne : d ≠ c := by
        rintro rfl
        exact nomatch hheld.symm.trans hd
      simpa [hne] using h.begins d k hd
  | @lock c k t hheld hfree henter =>
    refine ⟨w, .refl, ?_, ?_, ?_, ?_⟩
    · intro k' hk'
      refine h.object k' fun d hd => hk' d ?_
      have hne : d ≠ c := by
        rintro rfl
        exact nomatch hheld.symm.trans hd
      simpa [hne] using hd
    · intro d hd
      have hne : d ≠ c := by
        rintro rfl
        simp at hd
      simpa [hne] using h.thread d (by simpa [hne] using hd)
    · intro d k' hd
      rcases eq_or_ne d c with rfl | hne
      · obtain rfl : k = k' := by simpa using hd
        refine ⟨t, h.thread d hheld ▸ henter, ?_⟩
        simp [h.object k hfree, ReflTransGen.refl]
      · simpa [hne] using h.begins d k' (by simpa [hne] using hd)
    · intro d e k' hd he
      simp only [Function.update_apply] at hd he
      split_ifs at hd he with hdc hec hec
      · rw [hdc, hec]
      · obtain rfl := Option.some.inj hd
        exact absurd he (hfree e)
      · obtain rfl := Option.some.inj he
        exact absurd hd (hfree d)
      · exact h.exclusive d e k' hd he
  | @inside c k p hheld hin =>
    refine ⟨w, .refl, ?_, ?_, ?_, h.exclusive⟩
    · intro k' hk'
      have hne : k' ≠ k := by
        rintro rfl
        exact hk' c hheld
      simpa [hne] using h.object k' hk'
    · intro d hd
      have hne : d ≠ c := by
        rintro rfl
        exact nomatch hheld.symm.trans hd
      simpa [hne] using h.thread d hd
    · intro d k' hd
      rcases eq_or_ne d c with rfl | hne
      · obtain rfl : k = k' := Option.some.inj (hheld.symm.trans hd)
        obtain ⟨t, henter, hsteps⟩ := h.begins d k hheld
        refine ⟨t, henter, ?_⟩
        simpa using hsteps.tail hin
      · have hk : k' ≠ k := by
          rintro rfl
          exact hne (h.exclusive d c k' hd hheld)
        simpa [hne, hk] using h.begins d k' hd
  | @unlock c k t hheld hleave =>
    refine ⟨w.set k c (s.object k, t), .single (.whole ⟨_, h.begins c k hheld, hleave⟩), ?_⟩
    refine ⟨?_, ?_, ?_, ?_⟩
    · intro k' hk'
      rcases eq_or_ne k' k with rfl | hk
      · simp
      · have hfree : s.Unlocked k' := by
          intro d hd
          refine hk' d ?_
          have hne : d ≠ c := by
            rintro rfl
            exact hk (Option.some.inj (hd.symm.trans hheld))
          simpa [hne] using hd
        simpa [hk] using h.object k' hfree
    · intro d hd
      rcases eq_or_ne d c with rfl | hne
      · simp
      · simpa [hne] using h.thread d (by simpa [hne] using hd)
    · intro d k' hd
      have hne : d ≠ c := by
        rintro rfl
        simp at hd
      have hd' : s.held d = some k' := by simpa [hne] using hd
      have hk : k' ≠ k := by
        rintro rfl
        exact hne (h.exclusive d c k' hd' hheld)
      simpa [hne, hk] using h.begins d k' hd'
    · intro d e k' hd he
      simp only [Function.update_apply] at hd he
      split_ifs at hd he with hdc hec
      exact h.exclusive d e k' hd he

/-- Mutual exclusion makes sections whole. -/
theorem explained (w₀ : Whole ι κ σ τ) (h : ReflTransGen m.Step w₀.free s) :
    ∃ w, ReflTransGen m.Atomic w₀ w ∧ m.Explains s w := by
  induction h with
  | refl => exact ⟨w₀, .refl, explains_free w₀⟩
  | tail _ hstep ih =>
    obtain ⟨w, hreach, hexplains⟩ := ih
    obtain ⟨w', hatomic, hexplains'⟩ := hexplains.step hstep
    exact ⟨w', hreach.trans hatomic, hexplains'⟩

end Steps

end Monitor

end Transition
