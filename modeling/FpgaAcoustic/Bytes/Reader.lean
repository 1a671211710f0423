-- SUMMARY: A cursor over a memory that keeps the spans it has read, and parsers over it whose results rest on these spans alone.
import FpgaAcoustic.Bytes.Parser

/-!
# Readers

A memory has no end, so a parser that runs past the end of a buffer returns
something. A reader keeps where it has read. The parsers below read one span
after the other, and depend on nothing that they have not read.
-/

namespace Bytes

/-! ## Spans -/

/-- `size` bytes from address `start` on. -/
structure Span where
  start : ℕ
  size : ℕ

namespace Span

/-- The first address after the span. -/
def stop (s : Span) : ℕ := s.start + s.size

/-- The memories hold the same bytes there. -/
def Same (s : Span) (m m' : Memory) : Prop :=
  (m.drop s.start).take s.size = (m'.drop s.start).take s.size

end Span

/-- The first `n` bytes decide the value. -/
def Local {α : Type} (n : ℕ) (f : Memory → α) : Prop := ∀ m m', m.take n = m'.take n → f m = f m'

section Local

variable {α β : Type} {n k : ℕ}

theorem Memory.take_eq_iff {m m' : Memory} : m.take n = m'.take n ↔ ∀ i < n, m i = m' i := by
  rw [Memory.take, Memory.take, List.map_inj_left]
  simp only [List.mem_range]

theorem local_iff {f : Memory → α} :
    Local n f ↔ ∀ m m', (∀ i < n, m i = m' i) → f m = f m' := by
  simp only [Local, Memory.take_eq_iff]

theorem local_const (a : α) : Local n fun _ => a := fun _ _ _ => rfl

theorem local_take (g : List Byte → α) : Local n fun m => g (m.take n) :=
  fun _ _ h => congrArg g h

theorem Local.map₂ {γ : Type} {f : Memory → α} {f' : Memory → β} (h : Local n f)
    (h' : Local n f') (g : α → β → γ) : Local n fun m => g (f m) (f' m) := by
  intro m m' hm
  exact congrArg₂ g (h m m' hm) (h' m m' hm)

theorem Local.mono {f : Memory → α} (h : Local n f) (hle : n ≤ k) : Local k f := by
  rw [local_iff] at h ⊢
  intro m m' hm
  exact h m m' fun i hi => hm i (hi.trans_le hle)

theorem Local.drop {f : Memory → α} (h : Local n f) (k : ℕ) :
    Local (k + n) fun m => f (m.drop k) := by
  rw [local_iff] at h ⊢
  intro m m' hm
  exact h _ _ fun i hi => hm (k + i) (Nat.add_lt_add_left hi k)

end Local

/-! ## Reading -/

structure Reader where
  memory : Memory
  position : ℕ
  reads : List Span

namespace Reader

/-- A reader at the start of a memory. -/
def start (m : Memory) : Reader := ⟨m, 0, []⟩

/-- The memory from the cursor on. -/
def ahead (r : Reader) : Memory := r.memory.drop r.position

/-- The reader with another memory. -/
def withMemory (r : Reader) (m : Memory) : Reader := { r with memory := m }

/-- What `f` makes of the next `n` bytes. -/
def read {α : Type} (n : ℕ) (f : Memory → α) (r : Reader) : α × Reader :=
  (f r.ahead, { r with
    position := r.position + n
    reads := r.reads ++ [⟨r.position, n⟩] })

/-- The cursor is at the furthest end of what has been read. -/
def Tight (r : Reader) : Prop := ∀ cap, r.position ≤ cap ↔ ∀ s ∈ r.reads, s.stop ≤ cap

theorem tight_start (m : Memory) : (start m).Tight := by
  intro cap
  simp [start]

theorem Tight.read {α : Type} {r : Reader} (h : r.Tight) (n : ℕ) (f : Memory → α) :
    (r.read n f).2.Tight := by
  intro cap
  have hreads : (∀ s ∈ (r.read n f).2.reads, s.stop ≤ cap) ↔
      (∀ s ∈ r.reads, s.stop ≤ cap) ∧ r.position + n ≤ cap := by
    rw [Reader.read, List.forall_mem_append, List.forall_mem_singleton]
    rfl
  rw [hreads, ← h cap]
  show r.position + n ≤ cap ↔ _
  omega

end Reader

/-! ## Parsers -/

namespace Parser

open Reader

variable {α β : Type}

def reading (n : ℕ) (f : Memory → α) : Parser Reader α := fun r =>
  (some (r.read n f).1, (r.read n f).2)

/-- The parser moves its cursor by reading, and its result rests on what it reads. -/
structure Reads (p : Parser Reader α) : Prop where
  tight : ∀ r, r.Tight → (p r).2.Tight
  memory : ∀ r, (p r).2.memory = r.memory
  grows : ∀ r, r.reads ⊆ (p r).2.reads
  rests : ∀ r m, (∀ s ∈ (p r).2.reads, s.Same r.memory m) →
    p (r.withMemory m) = ((p r).1, (p r).2.withMemory m)

theorem Reads.pure (a : α) : Reads (pure a) where
  tight _ h := h
  memory _ := rfl
  grows _ := List.Subset.refl _
  rests _ _ _ := rfl

theorem Reads.lift (o : Option α) : Reads (lift o) where
  tight _ h := h
  memory _ := rfl
  grows _ := List.Subset.refl _
  rests _ _ _ := rfl

theorem Reads.reading {n : ℕ} {f : Memory → α} (hf : Local n f) : Reads (reading n f) where
  tight _ h := h.read n f
  memory _ := rfl
  grows _ := List.subset_append_left _ _
  rests r m h := by
    have hsame : Span.Same ⟨r.position, n⟩ r.memory m :=
      h _ (List.mem_append_right _ (List.mem_singleton_self _))
    have hval : f (r.withMemory m).ahead = f r.ahead := (hf _ _ hsame).symm
    simp only [Parser.reading, Reader.read, hval]
    rfl

theorem Reads.bind {p : Parser Reader α} {f : α → Parser Reader β} (hp : Reads p)
    (hf : ∀ a, Reads (f a)) : Reads (p.bind f) := by
  have hbind : ∀ r, (p.bind f r = (none, (p r).2) ∧ (p r).1 = none) ∨
      ∃ a, p.bind f r = f a (p r).2 ∧ (p r).1 = some a := by
    intro r
    rcases hr : p r with ⟨_ | a, r'⟩
    · exact .inl ⟨bind_none hr, rfl⟩
    · exact .inr ⟨a, bind_some hr, rfl⟩
  refine ⟨?_, ?_, ?_, ?_⟩
  · intro r htight
    rcases hbind r with ⟨heq, -⟩ | ⟨a, heq, -⟩
    · rw [heq]
      exact hp.tight r htight
    · rw [heq]
      exact (hf a).tight _ (hp.tight r htight)
  · intro r
    rcases hbind r with ⟨heq, -⟩ | ⟨a, heq, -⟩
    · rw [heq]
      exact hp.memory r
    · rw [heq]
      exact ((hf a).memory _).trans (hp.memory r)
  · intro r
    rcases hbind r with ⟨heq, -⟩ | ⟨a, heq, -⟩
    · rw [heq]
      exact hp.grows r
    · rw [heq]
      exact List.Subset.trans (hp.grows r) ((hf a).grows _)
  · intro r m hsame
    rcases hbind r with ⟨heq, hnone⟩ | ⟨a, heq, hsome⟩
    · rw [heq] at hsame ⊢
      have hover := hp.rests r m hsame
      rw [hnone] at hover
      exact bind_none hover
    · rw [heq] at hsame ⊢
      -- The first parser has read a part of what both have.
      have hover := hp.rests r m fun s hs => hsame s ((hf a).grows _ hs)
      rw [hsome] at hover
      rw [bind_some hover]
      apply (hf a).rests
      rwa [hp.memory r]

theorem Reads.map {p : Parser Reader α} (hp : Reads p) (f : α → β) : Reads (p.map f) :=
  hp.bind fun a => Reads.pure (f a)

theorem Reads.seq {ps : List (Parser Reader (List α))} (h : ∀ p ∈ ps, Reads p) :
    Reads (seq ps) := by
  induction ps with
  | nil => exact Reads.pure []
  | cons p ps ih =>
    obtain ⟨hp, hps⟩ := List.forall_mem_cons.mp h
    exact hp.bind fun xs => (ih hps).map (xs ++ ·)

/-! ## Simulation -/

/-- `q` does on the part `π` of the state what `p` does. -/
def Simulates {σ τ : Type} (π : σ → τ) (p : Parser σ α) (q : Parser τ α) : Prop :=
  ∀ s, q (π s) = ((p s).1, π (p s).2)

section Simulates

variable {σ τ : Type} {π : σ → τ}

theorem Simulates.pure (a : α) : Simulates π (pure a) (pure a) := fun _ => rfl

theorem Simulates.bind {p : Parser σ α} {q : Parser τ α} {f : α → Parser σ β}
    {g : α → Parser τ β} (h : Simulates π p q) (hf : ∀ a, Simulates π (f a) (g a)) :
    Simulates π (p.bind f) (q.bind g) := by
  intro s
  have hs := h s
  rcases hp : p s with ⟨_ | a, s'⟩
  · rw [hp] at hs
    rw [bind_none hp, bind_none hs]
  · rw [hp] at hs
    rw [bind_some hp, bind_some hs, hf a s']

theorem Simulates.map {p : Parser σ α} {q : Parser τ α} (h : Simulates π p q) (f : α → β) :
    Simulates π (p.map f) (q.map f) := h.bind fun a => Simulates.pure (f a)

theorem Simulates.seq {γ : Type} {p : γ → Parser σ (List α)} {q : γ → Parser τ (List α)}
    (h : ∀ g, Simulates π (p g) (q g)) (gs : List γ) :
    Simulates π (seq (gs.map p)) (seq (gs.map q)) := by
  induction gs with
  | nil => exact Simulates.pure []
  | cons g gs ih => exact (h g).bind fun xs => ih.map (xs ++ ·)

end Simulates

end Parser

end Bytes
