-- SUMMARY: Stateful parsers, sequences of them, and the rules for what a sequence decodes or rejects.
import FpgaAcoustic.Bytes.Memory

/-!
# Parsers

A parser takes its bytes out of a state: a connection, or a buffer with a
cursor. What the rules below need to know of the state is a relation `Ahead`
that says which bytes the parser finds next.
-/

namespace Bytes

/-- Steps that may fail. The state keeps the effects of the failed step. -/
abbrev Parser (σ α : Type) : Type := σ → Option α × σ

namespace Parser

variable {σ α β γ : Type}

def pure (a : α) : Parser σ α := fun s => (some a, s)

/-- A value that may be missing. -/
def lift (o : Option α) : Parser σ α := fun s => (o, s)

def bind (p : Parser σ α) (f : α → Parser σ β) : Parser σ β := fun s =>
  match p s with
  | (none, s') => (none, s')
  | (some a, s') => f a s'

def map (f : α → β) (p : Parser σ α) : Parser σ β := p.bind fun a => pure (f a)

/-- One parser after the other, with their results joined. -/
def seq : List (Parser σ (List α)) → Parser σ (List α)
  | [] => pure []
  | p :: ps => p.bind fun xs => (seq ps).map (xs ++ ·)

theorem bind_some {p : Parser σ α} {f : α → Parser σ β} {s s' : σ} {a : α}
    (h : p s = (some a, s')) : p.bind f s = f a s' := by
  simp [bind, h]

theorem bind_none {p : Parser σ α} {f : α → Parser σ β} {s s' : σ}
    (h : p s = (none, s')) : p.bind f s = (none, s') := by
  simp [bind, h]

theorem map_some {p : Parser σ α} {f : α → β} {s s' : σ} {a : α}
    (h : p s = (some a, s')) : p.map f s = (some (f a), s') := by
  rw [map, bind_some h, pure]

theorem map_none {p : Parser σ α} {f : α → β} {s s' : σ}
    (h : p s = (none, s')) : p.map f s = (none, s') := by
  rw [map, bind_none h]

/-- What a result needs: the first parser's, and one from there. -/
theorem of_bind_some {p : Parser σ α} {f : α → Parser σ β} {s s'' : σ} {b : β}
    (h : p.bind f s = (some b, s'')) : ∃ a s', p s = (some a, s') ∧ f a s' = (some b, s'') := by
  rcases hp : p s with ⟨_ | a, s'⟩
  · rw [bind_none hp] at h
    exact absurd (Prod.mk.inj h).1 (by simp)
  · rw [bind_some hp] at h
    exact ⟨a, s', rfl, h⟩

theorem of_map_some {p : Parser σ α} {f : α → β} {s s' : σ} {b : β}
    (h : p.map f s = (some b, s')) : ∃ a, p s = (some a, s') ∧ f a = b := by
  obtain ⟨a, s'', hp, hpure⟩ := of_bind_some h
  obtain ⟨hb, rfl⟩ := Prod.mk.inj hpure
  exact ⟨a, hp, Option.some.inj hb⟩

theorem map_eq_none {p : Parser σ α} {f : α → β} {s : σ} :
    (p.map f s).1 = none ↔ (p s).1 = none := by
  rcases hp : p s with ⟨_ | a, s'⟩
  · simp [map_none hp]
  · simp [map_some hp]

theorem map_state {f : α → β} {p : Parser σ α} {s : σ} : (p.map f s).2 = (p s).2 := by
  rcases hp : p s with ⟨_ | a, s'⟩
  · rw [map_none hp]
  · rw [map_some hp]

/-! ## Decoding -/

section Ahead

variable (Ahead : σ → List Byte → Prop)

/-- With `bs` ahead, `p` takes exactly `bs` and returns `a`. -/
def Decodes (p : Parser σ α) (bs : List Byte) (a : α) : Prop :=
  ∀ s rest, Ahead s (bs ++ rest) → ∃ s', p s = (some a, s') ∧ Ahead s' rest

/-- With `bs` ahead, `p` fails. -/
def Rejects (p : Parser σ α) (bs : List Byte) : Prop :=
  ∀ s rest, Ahead s (bs ++ rest) → (p s).1 = none

/-- With `bs` ahead, `p` fails or returns a list that differs from `as`, also
where both are continued. -/
def Misreads (p : Parser σ (List α)) (bs : List Byte) (as : List α) : Prop :=
  ∀ s rest, Ahead s (bs ++ rest) →
    ∀ xs, (p s).1 = some xs → ∀ ys zs, xs ++ ys ≠ as ++ zs

variable {Ahead}

theorem Rejects.misreads {p : Parser σ (List α)} {bs : List Byte} (h : Rejects Ahead p bs)
    (as : List α) : Misreads Ahead p bs as := by
  intro s rest hs xs hxs
  rw [h s rest hs] at hxs
  simp at hxs

theorem Decodes.pure (a : α) : Decodes Ahead (pure a) [] a :=
  fun s _ h => ⟨s, rfl, h⟩

theorem Decodes.lift (a : α) : Decodes Ahead (lift (some a)) [] a := Decodes.pure a

theorem Decodes.bind {p : Parser σ α} {f : α → Parser σ β} {bs cs : List Byte} {a : α} {b : β}
    (hp : Decodes Ahead p bs a) (hf : Decodes Ahead (f a) cs b) :
    Decodes Ahead (p.bind f) (bs ++ cs) b := by
  intro s rest h
  rw [List.append_assoc] at h
  obtain ⟨s', hs', hahead⟩ := hp s _ h
  obtain ⟨s'', hs'', hrest⟩ := hf s' rest hahead
  exact ⟨s'', by rw [bind_some hs', hs''], hrest⟩

theorem Decodes.map {p : Parser σ α} {bs : List Byte} {a : α} (f : α → β)
    (hp : Decodes Ahead p bs a) : Decodes Ahead (p.map f) bs (f a) := by
  intro s rest h
  obtain ⟨s', hs', hahead⟩ := hp s rest h
  exact ⟨s', map_some hs', hahead⟩

theorem Rejects.bind {p : Parser σ α} {f : α → Parser σ β} {bs : List Byte}
    (hp : Rejects Ahead p bs) (cs : List Byte) : Rejects Ahead (p.bind f) (bs ++ cs) := by
  intro s rest h
  rw [List.append_assoc] at h
  have hnone : p s = (none, (p s).2) := Prod.ext (hp s _ h) rfl
  rw [bind_none hnone]

theorem Decodes.bind_rejects {p : Parser σ α} {f : α → Parser σ β} {bs cs : List Byte} {a : α}
    (hp : Decodes Ahead p bs a) (hf : Rejects Ahead (f a) cs) :
    Rejects Ahead (p.bind f) (bs ++ cs) := by
  intro s rest h
  rw [List.append_assoc] at h
  obtain ⟨s', hs', hahead⟩ := hp s _ h
  rw [bind_some hs']
  exact hf s' rest hahead

theorem Rejects.map {p : Parser σ α} {bs : List Byte} (f : α → β) (hp : Rejects Ahead p bs) :
    Rejects Ahead (p.map f) bs := by
  intro s rest h
  have hnone : p s = (none, (p s).2) := Prod.ext (hp s _ h) rfl
  rw [map_none hnone]

/-- What the parser preserves can be added to what is known of the state. -/
theorem Decodes.frame {I : σ → Prop} {p : Parser σ α} {bs : List Byte} {a : α}
    (hp : Decodes Ahead p bs a) (hI : ∀ s, I s → I (p s).2) :
    Decodes (fun s bs => Ahead s bs ∧ I s) p bs a := by
  rintro s rest ⟨h, hs⟩
  obtain ⟨s', hs', hahead⟩ := hp s rest h
  have hI' := hI s hs
  rw [hs'] at hI'
  exact ⟨s', hs', hahead, hI'⟩

/-! ## Sequences -/

section Seq

variable {p : γ → Parser σ (List α)} {wire : γ → List Byte} {val : γ → List α} {gs : List γ}

theorem seq_decodes (h : ∀ g ∈ gs, Decodes Ahead (p g) (wire g) (val g)) :
    Decodes Ahead (seq (gs.map p)) (gs.flatMap wire) (gs.flatMap val) := by
  induction gs with
  | nil => exact Decodes.pure []
  | cons g gs ih =>
    obtain ⟨hg, hgs⟩ := List.forall_mem_cons.mp h
    exact hg.bind ((ih hgs).map (val g ++ ·))

/-- A sequence fails if one of its parsers does and those before it decode. -/
theorem seq_rejects
    (h : ∀ g ∈ gs, Decodes Ahead (p g) (wire g) (val g) ∨ Rejects Ahead (p g) (wire g))
    (hex : ∃ g ∈ gs, Rejects Ahead (p g) (wire g)) :
    Rejects Ahead (seq (gs.map p)) (gs.flatMap wire) := by
  induction gs with
  | nil => simp at hex
  | cons g gs ih =>
    obtain ⟨hg, hgs⟩ := List.forall_mem_cons.mp h
    by_cases hrej : Rejects Ahead (p g) (wire g)
    · exact hrej.bind _
    · obtain ⟨g', hmem, hg'⟩ := hex
      have htail : g' ∈ gs := by
        rcases List.mem_cons.mp hmem with rfl | htail
        · exact absurd hg' hrej
        · exact htail
      exact (hg.resolve_right hrej).bind_rejects ((ih hgs ⟨g', htail, hg'⟩).map _)

/-- A sequence misreads if one of its parsers does and those before it decode. -/
theorem seq_misreads
    (h : ∀ g ∈ gs, Decodes Ahead (p g) (wire g) (val g) ∨ Misreads Ahead (p g) (wire g) (val g))
    (hex : ∃ g ∈ gs, Misreads Ahead (p g) (wire g) (val g)) :
    Misreads Ahead (seq (gs.map p)) (gs.flatMap wire) (gs.flatMap val) := by
  induction gs with
  | nil => simp at hex
  | cons g gs ih =>
    obtain ⟨hg, hgs⟩ := List.forall_mem_cons.mp h
    intro s rest hs xs hxs ys zs
    rw [List.flatMap_cons, List.append_assoc] at hs
    obtain ⟨us, vs, s', hhead, htail, rfl⟩ : ∃ us vs s',
        p g s = (some us, s') ∧ (seq (gs.map p) s').1 = some vs ∧ us ++ vs = xs := by
      rw [List.map_cons, seq] at hxs
      obtain ⟨us, s', hhead, htail⟩ := of_bind_some (Prod.ext hxs rfl)
      obtain ⟨vs, hvs, heq⟩ := of_map_some htail
      exact ⟨us, vs, s', hhead, by rw [hvs], heq⟩
    rw [List.flatMap_cons, List.append_assoc, List.append_assoc]
    by_cases hmis : Misreads Ahead (p g) (wire g) (val g)
    · exact hmis s _ hs us (by rw [hhead]) _ _
    · obtain ⟨g', hmem, hg'⟩ := hex
      have hgs' : g' ∈ gs := by
        rcases List.mem_cons.mp hmem with rfl | hgs'
        · exact absurd hg' hmis
        · exact hgs'
      obtain ⟨s₁, hs₁, hahead⟩ := hg.resolve_right hmis s _ hs
      obtain ⟨rfl, rfl⟩ : val g = us ∧ s₁ = s' := by simpa [hhead] using hs₁.symm.trans hhead
      intro heq
      exact ih hgs ⟨g', hgs', hg'⟩ s₁ rest hahead vs htail ys zs (List.append_cancel_left heq)

end Seq

end Ahead

/-- A sequence in two parts, of which the first fails. -/
theorem seq_append_none {ps qs : List (Parser σ (List α))} {s : σ} (h : (seq ps s).1 = none) :
    (seq (ps ++ qs) s).1 = none := by
  induction ps generalizing s with
  | nil => simp [seq, pure] at h
  | cons p ps ih =>
    rcases hp : p s with ⟨_ | xs, s'⟩
    · rw [List.cons_append, seq, bind_none hp]
    · rw [seq, bind_some hp] at h
      rw [List.cons_append, seq, bind_some hp]
      rcases hq : seq ps s' with ⟨_ | ys, s''⟩
      · have hnone : seq (ps ++ qs) s' = (none, (seq (ps ++ qs) s').2) :=
          Prod.ext (ih (by rw [hq])) rfl
        rw [map_none hnone]
      · rw [map_some hq] at h
        simp at h

/-- A sequence in two parts, of which the first succeeds. -/
theorem seq_append_some {ps qs : List (Parser σ (List α))} {s s' : σ} {xs : List α}
    (h : seq ps s = (some xs, s')) : seq (ps ++ qs) s = (seq qs).map (xs ++ ·) s' := by
  induction ps generalizing s xs with
  | nil =>
    obtain ⟨rfl, rfl⟩ : [] = xs ∧ s = s' := by simpa [seq, pure] using h
    rcases hq : seq qs s with ⟨_ | ys, s''⟩
    · rw [map_none hq, List.nil_append, hq]
    · rw [map_some hq, List.nil_append, hq]
      rfl
  | cons p ps ih =>
    rcases hp : p s with ⟨_ | ys, s₁⟩
    · rw [seq, bind_none hp] at h
      simp at h
    · rw [seq, bind_some hp] at h
      rcases hps : seq ps s₁ with ⟨_ | zs, s₂⟩
      · rw [map_none hps] at h
        simp at h
      · obtain ⟨rfl, rfl⟩ : ys ++ zs = xs ∧ s₂ = s' := by simpa [map_some hps] using h
        rw [List.cons_append, seq, bind_some hp]
        rcases hq : seq qs s₂ with ⟨_ | ws, s₃⟩
        · rw [map_none hq, map_none ((ih hps).trans (map_none hq))]
        · rw [map_some hq, map_some ((ih hps).trans (map_some hq)), List.append_assoc]

/-- Where every parser succeeds and keeps `I`, so does the sequence. -/
theorem seq_total {I : σ → Prop} {ps : List (Parser σ (List α))}
    (h : ∀ p ∈ ps, ∀ s, I s → ∃ a s', p s = (some a, s') ∧ I s') {s : σ} (hs : I s) :
    ∃ a s', seq ps s = (some a, s') ∧ I s' := by
  induction ps generalizing s with
  | nil => exact ⟨[], s, rfl, hs⟩
  | cons p ps ih =>
    obtain ⟨hp, hps⟩ := List.forall_mem_cons.mp h
    obtain ⟨xs, s', hs', hi⟩ := hp s hs
    obtain ⟨ys, s'', hs'', hi'⟩ := ih hps hi
    refine ⟨xs ++ ys, s'', ?_, hi'⟩
    rw [seq, bind_some hs', map_some hs'']

end Parser

end Bytes
