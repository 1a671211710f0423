-- SUMMARY: The words that an agent has read when it is through with a command, and the LED that a round of the beamforming thread selects.
import FpgaAcoustic.Driver.Recording

/-!
# Rounds

A command is a list of sections, and each section captures and reads on its own.
The words of the four BRAMs do not change while an agent reads, so what it has
read in a section is one capture, and what it has read in a command is one
capture after the other.
-/

namespace Rounds

open Sesenta (micSize numMics numDirections)
open Capture (addrWidth)
open CaptureIsolation
open Pipeline (wordAt)
open Recording (Input Pulsed Past logicInputs)

/-- The command that an agent has taken up last, and the words it has read for it. -/
structure Log where
  sections : List Section
  words : List (BitVec 32)
  deriving DecidableEq, Repr

/-- The log after the next transaction of the agent. -/
def Log.record (l : Log) (a : Agent) (refill : Section × List Section)
    (bram : Fin 4 → BitVec addrWidth → BitVec 32) : Log :=
  match a.pc with
  | .select => if a.rest.isEmpty then ⟨refill.1 :: refill.2, []⟩ else l
  | .read idx =>
    { l with words := l.words ++ (a.mics.take 1).map fun mic => bram mic (BitVec.ofNat _ idx) }
  | .loadSet | .storeSet | .loadClear | .storeClear | .poll => l

structure State where
  sys : Recording.State
  log : Who → Log

variable (ext2sc : BitVec 16 → BitVec 32)

/-- One clock cycle. -/
def step (s : State) (i : Input) : State where
  sys := Recording.step ext2sc s.sys i
  log :=
    match i.bus.turn with
    | none => s.log
    | some (who, refill) => Function.update s.log who
        ((s.log who).record (s.sys.sys.agent who) refill s.sys.logic.bram)

/-- The state in each cycle of a run. -/
def run (s : State) (inp : ℕ → Input) : ℕ → State := Clocked.run (step ext2sc) s inp

/-! ## Specification -/

/-- The words that a section reads, by microphone and address. -/
def cells (mics : List (Fin numMics)) : List (Fin numMics × ℕ) :=
  mics.flatMap fun mic => (List.range micSize).map fun idx => (mic, idx)

/-- The word of a cell is that of a capture that started in cycle `f`. Word `0`
is not written by a capture. -/
def Fits (inp : ℕ → Pipeline.In) (dir : BitVec 32) (f : ℕ) (cell : Fin numMics × ℕ)
    (word : BitVec 32) : Prop :=
  cell.2 ≠ 0 → word = wordAt ext2sc inp dir f cell.1 (BitVec.ofNat _ cell.2)

/-- Up to cycle `T`, the words of the sections have been read, each section from a
capture of its own, in order. -/
inductive Recorded (inp : ℕ → Pipeline.In) : ℕ → List Section → List (BitVec 32) → Prop
  | nil {T} : Recorded inp T [] []
  | snoc {T f T'} {sections : List Section} {sec : Section} {words new : List (BitVec 32)} :
    Recorded inp T sections words → T ≤ f → f < T' →
      List.Forall₂ (Fits ext2sc inp sec.dir f) (cells sec.mics) new →
        Recorded inp T' (sections ++ [sec]) (words ++ new)

/-! ## What an agent has read -/

/-- What there is of a command at the next transaction of an agent: the sections
before the current one, and what has been done for the current one. -/
def Progress (s : Recording.State) (inp : ℕ → Input) (t : ℕ) (a : Agent) (l : Log) : Prop :=
  ∃ T pre words new, T ≤ t ∧ l.words = words ++ new ∧
    Recorded ext2sc (logicInputs ext2sc s inp) T pre words ∧
    match a.pc with
    | .select => l.sections = pre ++ a.rest ∧ new = []
    | .loadSet | .storeSet | .loadClear | .storeClear =>
      l.sections = pre ++ ⟨a.dir, a.mics⟩ :: a.rest ∧ new = []
    | .poll => l.sections = pre ++ ⟨a.dir, a.mics⟩ :: a.rest ∧ new = [] ∧
      (a.mics ≠ [] → ∃ f, T ≤ f ∧ Pulsed ext2sc s inp f t)
    | .read idx => ∃ read mic rest f, a.mics = mic :: rest ∧ idx < micSize ∧
      l.sections = pre ++ ⟨a.dir, read ++ a.mics⟩ :: a.rest ∧ T ≤ f ∧ Pulsed ext2sc s inp f t ∧
      List.Forall₂ (Fits ext2sc (logicInputs ext2sc s inp) a.dir f)
        (cells read ++ (List.range idx).map fun i => (mic, i)) new

section Progress

variable {ext2sc} {s : Recording.State} {inp : ℕ → Input} {t : ℕ} {a : Agent} {l : Log}

theorem pulsed_unique {f f' : ℕ} (h : Pulsed ext2sc s inp f t) (h' : Pulsed ext2sc s inp f' t) :
    f = f' := by
  rcases Nat.lt_trichotomy f f' with hlt | heq | hgt
  · have hlow := h.2.2 f' hlt h'.1.le
    exact absurd (hlow.symm.trans h'.2.1) Bool.false_ne_true
  · exact heq
  · have hlow := h'.2.2 f hgt h.1.le
    exact absurd (hlow.symm.trans h.2.1) Bool.false_ne_true

/-- A cycle without a transaction of the agent. -/
theorem Progress.wait (h : Progress ext2sc s inp t a l)
    (hok : a.Ok (Recording.run ext2sc s inp (t + 1)).sys.hw) :
    Progress ext2sc s inp (t + 1) a l := by
  obtain ⟨T, pre, words, new, hT, hwords, hrecorded, hpc⟩ := h
  refine ⟨T, pre, words, new, Nat.le_succ_of_le hT, hwords, hrecorded, ?_⟩
  unfold Agent.Ok at hok
  cases hcase : a.pc with
  | select | loadSet | storeSet | loadClear | storeClear =>
    simp only [hcase] at hpc ⊢
    exact hpc
  | poll =>
    simp only [hcase] at hpc hok ⊢
    obtain ⟨hsections, hnew, hpulsed⟩ := hpc
    refine ⟨hsections, hnew, fun hmics => ?_⟩
    obtain ⟨f, hTf, hf⟩ := hpulsed hmics
    exact ⟨f, hTf, hf.succ (hok hmics).2.1⟩
  | read idx =>
    simp only [hcase] at hpc hok ⊢
    obtain ⟨read, mic, rest, f, hmics, hidx, hsections, hTf, hf, hfits⟩ := hpc
    exact ⟨read, mic, rest, f, hmics, hidx, hsections, hTf, hf.succ hok.1, hfits⟩

theorem cells_append (mics mics' : List (Fin numMics)) :
    cells (mics ++ mics') = cells mics ++ cells mics' := List.flatMap_append ..

theorem cells_singleton (mic : Fin numMics) :
    cells [mic] = (List.range micSize).map fun i => (mic, i) := List.flatMap_singleton ..

/-- The word that is read fits its cell. -/
theorem fits_of_readsExact {idx f : ℕ} (hexact : Recording.ReadsExact ext2sc s inp t a)
    (hpc : a.pc = .read idx) (hidx : idx < micSize) (hf : Pulsed ext2sc s inp f t)
    (mic : Fin numMics) :
    Fits ext2sc (logicInputs ext2sc s inp) a.dir f (mic, idx)
      ((Recording.run ext2sc s inp t).logic.bram mic (BitVec.ofNat _ idx)) := by
  intro hne
  obtain ⟨f', hf', hwords⟩ := hexact idx hpc
  rw [pulsed_unique hf hf']
  refine hwords mic _ fun hzero => hne ?_
  have hsize : micSize = 2 ^ addrWidth := by decide
  have hnat := congrArg BitVec.toNat hzero
  rwa [BitVec.toNat_ofNat, Nat.mod_eq_of_lt (hsize ▸ hidx)] at hnat

/-- A read of the agent. -/
theorem Progress.read {idx : ℕ} (h : Progress ext2sc s inp t a l) (hpc : a.pc = .read idx)
    (hexact : Recording.ReadsExact ext2sc s inp t a)
    (hok' : (a.advance idx).Ok (Recording.run ext2sc s inp (t + 1)).sys.hw) :
    Progress ext2sc s inp (t + 1) (a.advance idx)
      { l with words := l.words ++ (a.mics.take 1).map fun mic =>
        (Recording.run ext2sc s inp t).logic.bram mic (BitVec.ofNat _ idx) } := by
  obtain ⟨T, pre, words, new, hT, hwords, hrecorded, hread⟩ := h
  simp only [hpc] at hread
  obtain ⟨read, mic, rest, f, hmics, hidx, hsections, hTf, hf, hfits⟩ := hread
  have hword := fits_of_readsExact hexact hpc hidx hf mic
  have hnew : List.Forall₂ _ (_ ++ _) (_ ++ _) := List.rel_append hfits (.cons hword .nil)
  have hlog : l.words ++ (a.mics.take 1).map (fun mic =>
      (Recording.run ext2sc s inp t).logic.bram mic (BitVec.ofNat _ idx)) =
      words ++ (new ++ [(Recording.run ext2sc s inp t).logic.bram mic (BitVec.ofNat _ idx)]) := by
    rw [hmics, hwords, List.append_assoc]
    rfl
  rw [hlog]
  have hrange : cells read ++ (List.range idx).map (fun i => (mic, i)) ++ [(mic, idx)] =
      cells read ++ (List.range (idx + 1)).map fun i => (mic, i) := by
    rw [List.range_succ, List.map_append, List.append_assoc]
    rfl
  rw [hrange] at hnew
  unfold Agent.advance at hok' ⊢
  by_cases hnext : idx + 1 < micSize
  · rw [if_pos hnext] at hok' ⊢
    exact ⟨T, pre, words, _, Nat.le_succ_of_le hT, rfl, hrecorded, read, mic, rest, f, hmics, hnext,
      hsections, hTf, hf.succ hok'.1, hnew⟩
  · rw [if_neg hnext] at hok' ⊢
    rw [show idx + 1 = micSize by omega] at hnew
    rw [← cells_singleton, ← cells_append] at hnew
    cases rest with
    | nil =>
      have hsection := @Recorded.snoc ext2sc _ T f (t + 1) pre ⟨a.dir, read ++ [mic]⟩ words _
        hrecorded hTf (Nat.lt_succ_of_lt hf.1) hnew
      rw [hmics] at hsections ⊢
      refine ⟨t + 1, _, _, [], le_rfl, (List.append_nil _).symm, hsection, ?_, rfl⟩
      rw [hsections, List.append_assoc]
      rfl
    | cons mic' rest =>
      rw [hmics] at hok' hsections ⊢
      refine ⟨T, pre, words, _, Nat.le_succ_of_le hT, rfl, hrecorded, read ++ [mic], mic', rest, f,
        rfl, by decide, ?_, hTf, hf.succ hok'.1, ?_⟩
      · rw [hsections, List.append_assoc]
        rfl
      · rwa [List.range_zero, List.map_nil, List.append_nil]

/-- A poll that has seen the end of the capture. -/
theorem Progress.enterReads (h : Progress ext2sc s inp t a l) (hpc : a.pc = .poll)
    (hok' : a.enterReads.Ok (Recording.run ext2sc s inp (t + 1)).sys.hw) :
    Progress ext2sc s inp (t + 1) a.enterReads l := by
  obtain ⟨T, pre, words, new, hT, hwords, hrecorded, hpoll⟩ := h
  simp only [hpc] at hpoll
  obtain ⟨hsections, rfl, hpulsed⟩ := hpoll
  unfold Agent.enterReads at hok' ⊢
  cases hmics : a.mics with
  | nil =>
    have hsection := @Recorded.snoc ext2sc _ T t (t + 1) pre ⟨a.dir, []⟩ words []
      hrecorded hT (Nat.lt_succ_self t) .nil
    rw [hmics] at hsections
    refine ⟨t + 1, _, _, [], le_rfl, hwords.trans (List.append_nil _).symm, hsection, ?_, rfl⟩
    rw [hsections, List.append_assoc]
    rfl
  | cons mic rest =>
    obtain ⟨f, hTf, hf⟩ := hpulsed (by rw [hmics]; exact List.cons_ne_nil mic rest)
    rw [hmics] at hok' hsections
    exact ⟨T, pre, words, [], Nat.le_succ_of_le hT, hwords, hrecorded, [], mic, rest, f, rfl,
      by decide, hsections, hTf, hf.succ hok'.1, .nil⟩

/-- A transaction of the agent. -/
theorem Progress.transact {refill : Section × List Section} {ctl : Ctl} {done : Bool}
    (h : Progress ext2sc s inp t a l) (hok : a.Ok (Recording.run ext2sc s inp t).sys.hw)
    (hexact : Recording.ReadsExact ext2sc s inp t a)
    (hok' : (a.transact refill ctl done).2.Ok (Recording.run ext2sc s inp (t + 1)).sys.hw) :
    Progress ext2sc s inp (t + 1) (a.transact refill ctl done).2
      (l.record a refill (Recording.run ext2sc s inp t).logic.bram) := by
  unfold Agent.transact at hok' ⊢
  unfold Log.record
  cases hpc : a.pc with
  | read idx =>
    simp only [hpc] at hok' ⊢
    exact h.read hpc hexact hok'
  | poll =>
    simp only [hpc] at hok' ⊢
    cases done with
    | false => exact h.wait hok'
    | true => exact h.enterReads hpc hok'
  | storeClear =>
    obtain ⟨T, pre, words, new, hT, hwords, hrecorded, hstore⟩ := h
    unfold Agent.Ok at hok
    simp only [hpc] at hstore hok hok' ⊢
    refine ⟨T, pre, words, new, Nat.le_succ_of_le hT, hwords, hrecorded, hstore.1, hstore.2,
      fun hmics => ⟨t, hT, Nat.lt_succ_self t, hok.2.1, fun c htc hct => ?_⟩⟩
    rw [Nat.le_antisymm hct htc]
    exact (hok' hmics).2.1
  | select =>
    obtain ⟨T, pre, words, new, hT, hwords, hrecorded, hselect⟩ := h
    simp only [hpc, Agent.next] at hselect ⊢
    cases hrest : a.rest with
    | nil => exact ⟨t + 1, [], [], [], le_rfl, rfl, .nil, rfl, rfl⟩
    | cons sec rest =>
      rw [hrest] at hselect
      exact ⟨T, pre, words, new, Nat.le_succ_of_le hT, hwords, hrecorded, hselect⟩
  | loadSet | storeSet | loadClear =>
    obtain ⟨T, pre, words, new, hT, hwords, hrecorded, hnext⟩ := h
    simp only [hpc] at hnext ⊢
    exact ⟨T, pre, words, new, Nat.le_succ_of_le hT, hwords, hrecorded, hnext⟩

end Progress

/-! ## Runs -/

/-- The agents are between commands, and have read nothing. -/
structure Fresh (s : State) : Prop where
  idle : Idle s.sys.sys
  log : ∀ who, s.log who = ⟨(s.sys.sys.agent who).rest, []⟩

/-- An agent is through with its command. -/
def Through (s : State) (who : Who) : Prop :=
  (s.sys.sys.agent who).pc = .select ∧ (s.sys.sys.agent who).rest = []

section Run

variable {ext2sc} {s : State} {inp : ℕ → Input} {t T : ℕ} {who : Who}

theorem run_sys (t : ℕ) : (run ext2sc s inp t).sys = Recording.run ext2sc s.sys inp t := by
  induction t with
  | zero => rfl
  | succ t ih => exact congrArg (Recording.step ext2sc · (inp t)) ih

/-- The log changes with the transactions of its agent. -/
theorem step_log (s : State) (i : Input) (who : Who) :
    ((step ext2sc s i).sys.sys.agent who = s.sys.sys.agent who ∧
        (step ext2sc s i).log who = s.log who) ∨
      ∃ refill, (step ext2sc s i).sys.sys.agent who =
          ((s.sys.sys.agent who).transact refill s.sys.sys.hw.ctl s.sys.sys.hw.counter.done).2 ∧
        (step ext2sc s i).log who =
          (s.log who).record (s.sys.sys.agent who) refill s.sys.logic.bram := by
  have hagent : (step ext2sc s i).sys.sys.agent =
      (CaptureIsolation.step s.sys.sys (s.sys.cycle i)).agent := rfl
  have hturn : (s.sys.cycle i).bus.turn = i.bus.turn := rfl
  rw [hagent, CaptureIsolation.step, hturn]
  unfold step
  cases i.bus.turn with
  | none => exact .inl ⟨rfl, rfl⟩
  | some turn =>
    obtain ⟨w, refill⟩ := turn
    by_cases hw : who = w
    · rw [hw]
      exact .inr ⟨refill, Function.update_self .., Function.update_self ..⟩
    · exact .inl ⟨Function.update_of_ne hw .., Function.update_of_ne hw ..⟩

theorem progress_of_respectful (hreset : Clocked.ResetFirst fun t => (inp t).rst) (hfresh : Fresh s)
    (h : Recording.Respectful ext2sc s.sys inp T) (ht : t ≤ T) (who : Who) :
    Progress ext2sc s.sys inp t ((run ext2sc s inp t).sys.sys.agent who)
      ((run ext2sc s inp t).log who) := by
  induction t with
  | zero =>
    have hpc : (s.sys.sys.agent who).pc = .select := hfresh.idle who
    show Progress ext2sc s.sys inp 0 (s.sys.sys.agent who) (s.log who)
    rw [hfresh.log who]
    refine ⟨0, [], [], [], le_rfl, rfl, .nil, ?_⟩
    simp only [hpc]
    exact ⟨rfl, trivial⟩
  | succ t ih =>
    have hlt := Nat.le_of_succ_le ht
    have hprogress := ih hlt
    have hok := (Recording.inv_of_respectful hfresh.idle h hlt who).1
    have hok' := (Recording.inv_of_respectful hfresh.idle h ht who).1
    have hexact := Recording.readsExact_of_past hreset
      (Recording.past_of_respectful hfresh.idle h hlt who)
    have hagent : (Recording.run ext2sc s.sys inp (t + 1)).sys.agent who =
        (step ext2sc (run ext2sc s inp t) (inp t)).sys.sys.agent who := by
      rw [← run_sys]
      rfl
    rw [hagent] at hok'
    show Progress ext2sc s.sys inp (t + 1)
      ((step ext2sc (run ext2sc s inp t) (inp t)).sys.sys.agent who)
      ((step ext2sc (run ext2sc s inp t) (inp t)).log who)
    rcases step_log (run ext2sc s inp t) (inp t) who with ⟨hsame, hlog⟩ | ⟨refill, hact, hlog⟩
    · rw [hsame] at hok' ⊢
      rw [hlog]
      exact hprogress.wait hok'
    · rw [hact] at hok' ⊢
      rw [hlog]
      rw [run_sys] at hok' hprogress ⊢
      exact hprogress.transact hok hexact hok'

theorem Recorded.mono {x : ℕ → Pipeline.In} {T T' : ℕ} {sections : List Section}
    {words : List (BitVec 32)} (h : Recorded ext2sc x T sections words) (hT : T ≤ T') :
    Recorded ext2sc x T' sections words := by
  cases h with
  | nil => exact .nil
  | snoc hpre hTf hf hnew => exact hpre.snoc hTf (hf.trans_le hT) hnew

/-- When an agent is through, it has the words of all sections of its command. -/
theorem recorded_of_through (hreset : Clocked.ResetFirst fun t => (inp t).rst) (hfresh : Fresh s)
    (h : Recording.Respectful ext2sc s.sys inp T) (ht : t ≤ T)
    (hthrough : Through (run ext2sc s inp t) who) :
    Recorded ext2sc (logicInputs ext2sc s.sys inp) t ((run ext2sc s inp t).log who).sections
      ((run ext2sc s inp t).log who).words := by
  obtain ⟨U, pre, words, new, hU, hwords, hrecorded, hpc⟩ :=
    progress_of_respectful hreset hfresh h ht who
  simp only [hthrough.1] at hpc
  rw [hpc.1, hwords, hpc.2, hthrough.2, List.append_nil, List.append_nil]
  exact hrecorded.mono hU

end Run

/-! ## Positions -/

section Positions

variable {ext2sc} {x : ℕ → Pipeline.In} {T b : ℕ} {sections : List Section}
  {words : List (BitVec 32)}

theorem length_cells (mics : List (Fin numMics)) : (cells mics).length = micSize * mics.length := by
  induction mics with
  | nil => rfl
  | cons mic mics ih =>
    rw [← List.singleton_append, cells_append, List.length_append, ih, cells_singleton,
      List.length_map, List.length_range, List.length_append, List.length_singleton]
    ring

theorem cells_getElem? {mics : List (Fin numMics)} {m i : ℕ} {mic : Fin numMics}
    (hmic : mics[m]? = some mic) (hi : i < micSize) :
    (cells mics)[micSize * m + i]? = some (mic, i) := by
  induction mics generalizing m with
  | nil => cases hmic
  | cons first mics ih =>
    have hlen : (cells [first]).length = micSize := by
      rw [length_cells, List.length_singleton, Nat.mul_one]
    rw [← List.singleton_append, cells_append]
    cases m with
    | zero =>
      rw [List.getElem?_cons_zero, Option.some.injEq] at hmic
      rw [Nat.mul_zero, Nat.zero_add, List.getElem?_append_left (by rwa [hlen]), cells_singleton,
        List.getElem?_map, List.getElem?_range hi, hmic]
      rfl
    | succ m =>
      rw [List.getElem?_cons_succ] at hmic
      rw [List.getElem?_append_right (by rw [hlen, Nat.mul_succ]; omega), hlen,
        show micSize * (m + 1) + i - micSize = micSize * m + i by rw [Nat.mul_succ]; omega]
      exact ih hmic

theorem length_new {dir : BitVec 32} {f : ℕ} {mics : List (Fin numMics)} {new : List (BitVec 32)}
    (h : List.Forall₂ (Fits ext2sc x dir f) (cells mics) new) :
    new.length = micSize * mics.length := by
  rw [← h.length_eq, length_cells]

theorem Recorded.length (h : Recorded ext2sc x T sections words)
    (hb : ∀ sec ∈ sections, sec.mics.length = b) :
    words.length = micSize * (b * sections.length) := by
  induction h with
  | nil => rfl
  | snoc hpre hTf hf hnew ih =>
    rw [List.length_append, length_new hnew,
      ih fun sec hsec => hb sec (List.mem_append_left _ hsec),
      hb _ (List.mem_append_right _ (List.mem_singleton_self _)), List.length_append,
      List.length_singleton]
    ring

/-- The word of a cell, in the part of a section. -/
theorem new_getElem? {dir : BitVec 32} {f m i : ℕ} {mics : List (Fin numMics)} {mic : Fin numMics}
    {new : List (BitVec 32)} (h : List.Forall₂ (Fits ext2sc x dir f) (cells mics) new)
    (hmic : mics[m]? = some mic) (hi : i < micSize) (hne : i ≠ 0) :
    new[micSize * m + i]? = some (wordAt ext2sc x dir f mic (BitVec.ofNat _ i)) := by
  obtain ⟨hlt, hcell⟩ := List.getElem?_eq_some_iff.mp (cells_getElem? hmic hi)
  have hlt' : micSize * m + i < new.length := h.length_eq ▸ hlt
  have hfits : Fits ext2sc x dir f ((cells mics).get ⟨_, hlt⟩) (new.get ⟨_, hlt'⟩) := h.get hlt hlt'
  rw [List.get_eq_getElem, hcell, List.get_eq_getElem] at hfits
  rw [List.getElem?_eq_getElem hlt', hfits hne]

/-- The word of an address, in the block of a microphone, in the part of a
section. -/
theorem Recorded.exists_pulses (h : Recorded ext2sc x T sections words)
    (hb : ∀ sec ∈ sections, sec.mics.length = b) :
    ∃ f : ℕ → ℕ, (∀ k, k < sections.length → f k < T) ∧
      (∀ k k', k < k' → k' < sections.length → f k < f k') ∧
      ∀ k sec m mic i, sections[k]? = some sec → sec.mics[m]? = some mic → i < micSize → i ≠ 0 →
        words[micSize * (b * k + m) + i]? =
          some (wordAt ext2sc x sec.dir (f k) mic (BitVec.ofNat _ i)) := by
  induction h with
  | nil => exact ⟨id, fun k hk => absurd hk (Nat.not_lt_zero k),
      fun k k' _ hk' => absurd hk' (Nat.not_lt_zero k'), fun k sec m mic i hsec => by cases hsec⟩
  | @snoc U f T' sections sec words new hpre hUf hf hnew ih =>
    have hb' : ∀ sec ∈ sections, sec.mics.length = b := fun sec hsec =>
      hb sec (List.mem_append_left _ hsec)
    have hsec : sec.mics.length = b := hb sec (List.mem_append_right _ (List.mem_singleton_self _))
    obtain ⟨g, hgU, hmono, hword⟩ := ih hb'
    have hlen := hpre.length hb'
    refine ⟨fun k => if k < sections.length then g k else f, fun k _ => ?_, fun k k' hkk' hk' => ?_,
      fun k sec' m mic i hk hmic hi hne => ?_⟩
    · dsimp only
      split_ifs with hk
      · exact (hgU k hk).trans (hUf.trans_lt hf)
      · exact hf
    · rw [List.length_append, List.length_singleton] at hk'
      have hk : k < sections.length := by omega
      dsimp only
      rw [if_pos hk]
      split_ifs with hlt
      · exact hmono k k' hkk' hlt
      · exact (hgU k hk).trans_le hUf
    · dsimp only
      rcases Nat.lt_or_ge k sections.length with hlt | hge
      · rw [List.getElem?_append_left hlt] at hk
        have hm : m < b := by
          rw [← hb' sec' (List.mem_of_getElem? hk)]
          exact (List.getElem?_eq_some_iff.mp hmic).1
        have hindex : micSize * (b * k + m) + i < words.length := by
          have hblock : b * k + m + 1 ≤ b * sections.length :=
            (show b * k + m + 1 ≤ b * (k + 1) by rw [Nat.mul_succ]; omega).trans
              (Nat.mul_le_mul_left b hlt)
          have hle := Nat.mul_le_mul_left micSize hblock
          rw [Nat.mul_succ] at hle
          omega
        rw [List.getElem?_append_left hindex, if_pos hlt]
        exact hword k sec' m mic i hk hmic hi hne
      · obtain rfl : k = sections.length := by
          have hbound := (List.getElem?_eq_some_iff.mp hk).1
          rw [List.length_append, List.length_singleton] at hbound
          omega
        rw [List.getElem?_concat_length, Option.some.injEq] at hk
        subst hk
        have hindex : micSize * (b * sections.length + m) + i =
            words.length + (micSize * m + i) := by
          rw [hlen]
          ring
        rw [hindex, List.getElem?_append_right (Nat.le_add_right _ _), Nat.add_sub_cancel_left,
          if_neg (Nat.lt_irrefl _)]
        exact new_getElem? hnew hmic hi hne

end Positions

/-! ## Results -/

/-- `data_ret` of `get_mics_bram`. -/
def dataRet (words : List (BitVec 32)) : List ℤ := words.map BitVec.toInt

/-- The BRAM contents that a round of `beamf_thread` has read, for each direction. -/
def contents (words : List (BitVec 32)) (dir : Fin numDirections) : Sesenta.Brams := fun mic i =>
  words.getD (micSize * (numMics * dir + mic) + i) 0

section Results

variable {ext2sc} {s : State} {inp : ℕ → Input} {t T : ℕ}

end Results

/-! ## An agent alone -/

/-- All registers cleared, and both agents between commands. -/
def powerUp : State := ⟨Recording.powerUp, fun _ => ⟨[], []⟩⟩

/-- One agent has the bus in every cycle, and the pins are high. -/
def only (bus : Bus) (t : ℕ) : Input := ⟨t == 0, fun _ => true, bus⟩

theorem only_reset (bus : Bus) : Clocked.ResetFirst fun t => (only bus t).rst :=
  ⟨rfl, fun t => by simp [only]⟩

theorem powerUp_fresh : Fresh powerUp where
  idle := powerUp_idle
  log who := by cases who <;> rfl

section Alone

variable {bus : Bus} {who : Who} {refill : Section × List Section} {t : ℕ}

def stateAt (bus : Bus) (t : ℕ) : State := run (BitVec.signExtend 32) powerUp (only bus) t

def agentAt (bus : Bus) (who : Who) (t : ℕ) : Agent := (stateAt bus t).sys.sys.agent who

def sectionsAt (bus : Bus) (who : Who) (t : ℕ) : List Section := ((stateAt bus t).log who).sections

def doneAt (bus : Bus) (t : ℕ) : Bool := (stateAt bus t).sys.sys.hw.counter.done

theorem other_idle (hturn : bus.turn = some (who, refill)) (t : ℕ) :
    (agentAt bus who.other t).pc = .select := by
  induction t with
  | zero => exact powerUp_idle _
  | succ t ih =>
    have hne : who.other ≠ who := by cases who <;> exact fun h => Who.noConfusion h
    have hsame : agentAt bus who.other (t + 1) = agentAt bus who.other t := by
      unfold agentAt stateAt
      rw [run_sys, run_sys]
      refine Recording.step_agent_of_ne _ _ fun turn hmem => ?_
      have heq : (who, refill) = turn := Option.mem_some_iff.mp (hturn ▸ hmem)
      rw [← heq]
      exact hne.symm
    rw [hsame, ih]

theorem only_respectful (hturn : bus.turn = some (who, refill)) (T : ℕ) :
    Recording.Respectful (BitVec.signExtend 32) powerUp.sys (only bus) T := by
  intro t _ turn hmem
  have heq : (who, refill) = turn := Option.mem_some_iff.mp (hturn ▸ hmem)
  have hother := other_idle hturn t
  unfold agentAt stateAt at hother
  rw [run_sys] at hother
  rw [← heq]
  exact ⟨fun _ => by simp [Agent.capturing, hother], fun _ => by simp [Agent.reading, hother]⟩

theorem agentAt_succ (hturn : bus.turn = some (who, refill)) (t : ℕ) :
    ∃ ctl, agentAt bus who (t + 1) = ((agentAt bus who t).transact refill ctl (doneAt bus t)).2 := by
  have hcycle : ((stateAt bus t).sys.cycle (only bus t)).bus.turn = some (who, refill) := hturn
  refine ⟨(stateAt bus t).sys.sys.hw.ctl, ?_⟩
  show (CaptureIsolation.step (stateAt bus t).sys.sys
    ((stateAt bus t).sys.cycle (only bus t))).agent who = _
  rw [CaptureIsolation.step, hcycle]
  exact Function.update_self ..

theorem sectionsAt_succ (hturn : bus.turn = some (who, refill)) (t : ℕ) :
    sectionsAt bus who (t + 1) =
      if (agentAt bus who t).pc = .select ∧ (agentAt bus who t).rest = [] then
        refill.1 :: refill.2
      else sectionsAt bus who t := by
  have hlog : (stateAt bus (t + 1)).log who =
      ((stateAt bus t).log who).record (agentAt bus who t) refill
        (stateAt bus t).sys.logic.bram := by
    have hbus : (only bus t).bus.turn = some (who, refill) := hturn
    show (step _ (stateAt bus t) (only bus t)).log who = _
    rw [step, hbus]
    exact Function.update_self ..
  unfold sectionsAt
  rw [hlog, Log.record]
  cases (agentAt bus who t).pc with
  | select => cases (agentAt bus who t).rest <;> simp
  | loadSet | storeSet | loadClear | storeClear | poll => simp
  | read idx => simp

/-- The section that is taken up next is polled five cycles later. -/
theorem poll_of_select (hturn : bus.turn = some (who, refill)) {sec : Section}
    {rest : List Section} (hpc : (agentAt bus who t).pc = .select)
    (hnext : (agentAt bus who t).next refill = (sec, rest)) :
    (agentAt bus who (t + 5)).pc = .poll ∧ (agentAt bus who (t + 5)).mics = sec.mics ∧
      (agentAt bus who (t + 5)).rest = rest ∧
      sectionsAt bus who (t + 5) = sectionsAt bus who (t + 1) := by
  obtain ⟨ctl, h₁⟩ := agentAt_succ hturn t
  obtain ⟨ctl, h₂⟩ := agentAt_succ hturn (t + 1)
  obtain ⟨ctl, h₃⟩ := agentAt_succ hturn (t + 2)
  obtain ⟨ctl, h₄⟩ := agentAt_succ hturn (t + 3)
  obtain ⟨ctl, h₅⟩ := agentAt_succ hturn (t + 4)
  simp only [Agent.transact, hpc, hnext] at h₁
  simp only [Agent.transact, h₁] at h₂
  simp only [Agent.transact, h₂] at h₃
  simp only [Agent.transact, h₃] at h₄
  simp only [Agent.transact, h₄] at h₅
  rw [h₅]
  refine ⟨rfl, rfl, rfl, ?_⟩
  rw [sectionsAt_succ hturn, sectionsAt_succ hturn (t + 3), sectionsAt_succ hturn (t + 2),
    sectionsAt_succ hturn (t + 1), h₁, h₂, h₃, h₄]
  rfl

/-- A poll before the end of the capture changes nothing. -/
theorem poll_again (hturn : bus.turn = some (who, refill)) (hpc : (agentAt bus who t).pc = .poll)
    (hdone : doneAt bus t = false) :
    agentAt bus who (t + 1) = agentAt bus who t ∧
      sectionsAt bus who (t + 1) = sectionsAt bus who t := by
  obtain ⟨ctl, hnext⟩ := agentAt_succ hturn t
  refine ⟨?_, ?_⟩
  · rw [hnext, hdone]
    simp only [Agent.transact, hpc, Bool.false_eq_true, if_false]
  · rw [sectionsAt_succ hturn, hpc, if_neg fun h => Pc.noConfusion h.1]

theorem polls_or_done (hturn : bus.turn = some (who, refill)) (hpc : (agentAt bus who t).pc = .poll)
    (hmics : (agentAt bus who t).mics ≠ []) {f : ℕ}
    (hf : Pulsed (BitVec.signExtend 32) powerUp.sys (only bus) f t) (n : ℕ) :
    (∃ u, agentAt bus who u = agentAt bus who t ∧ sectionsAt bus who u = sectionsAt bus who t ∧
        doneAt bus u = true) ∨
      agentAt bus who (t + n) = agentAt bus who t ∧
        sectionsAt bus who (t + n) = sectionsAt bus who t ∧
        Pulsed (BitVec.signExtend 32) powerUp.sys (only bus) f (t + n) := by
  induction n with
  | zero => exact .inr ⟨rfl, rfl, hf⟩
  | succ n ih =>
    rcases ih with hended | ⟨hagent, hsections, hpulsed⟩
    · exact .inl hended
    · cases hdone : doneAt bus (t + n) with
      | true => exact .inl ⟨t + n, hagent, hsections, hdone⟩
      | false =>
        obtain ⟨hagent', hsections'⟩ := poll_again hturn (by rw [hagent, hpc]) hdone
        rw [hagent] at hagent'
        rw [hsections] at hsections'
        have hok := (Recording.inv_of_respectful powerUp_fresh.idle
          (only_respectful hturn (t + n + 1)) le_rfl who).1
        rw [← run_sys] at hok
        change (agentAt bus who (t + n + 1)).Ok _ at hok
        rw [hagent'] at hok
        unfold Agent.Ok at hok
        rw [hpc] at hok
        have hlow := (hok hmics).2.1
        rw [run_sys] at hlow
        exact .inr ⟨hagent', hsections', hpulsed.succ hlow⟩

/-- The capture ends. -/
theorem wait_ends (hturn : bus.turn = some (who, refill)) (hpc : (agentAt bus who t).pc = .poll)
    (hmics : (agentAt bus who t).mics ≠ []) :
    ∃ u, agentAt bus who u = agentAt bus who t ∧ sectionsAt bus who u = sectionsAt bus who t ∧
      doneAt bus u = true := by
  have hwait : ∀ u, agentAt bus who u = agentAt bus who t →
      ∃ f, Pulsed (BitVec.signExtend 32) powerUp.sys (only bus) f u ∧
        (f + Pipeline.captureCycles ≤ u → doneAt bus u = true) := by
    intro u hu
    have hends := Recording.waitEnds_of_past (only_reset bus)
      (Recording.past_of_respectful powerUp_fresh.idle (only_respectful hturn u) le_rfl who)
    rw [← run_sys] at hends
    change Recording.WaitEnds _ _ _ _ (agentAt bus who u) at hends
    rw [hu] at hends
    obtain ⟨f, hf, hlong⟩ := hends hpc hmics
    refine ⟨f, hf, fun hle => ?_⟩
    have hdone := hlong hle
    rwa [Recording.State.done, Recording.State.same, ← run_sys] at hdone
  obtain ⟨f, hf, -⟩ := hwait t rfl
  rcases polls_or_done hturn hpc hmics hf Pipeline.captureCycles with
    hended | ⟨hagent, hsections, hpulsed⟩
  · exact hended
  · obtain ⟨f', hf', hlong⟩ := hwait _ hagent
    rw [← pulsed_unique hpulsed hf'] at hlong
    exact ⟨_, hagent, hsections, hlong (Nat.add_le_add_right hf.1.le _)⟩

/-- The words of a microphone are read one in each cycle. -/
theorem read_mic (hturn : bus.turn = some (who, refill)) {idx k : ℕ}
    (hpc : (agentAt bus who t).pc = .read idx) (hk : idx + k + 1 = micSize) :
    agentAt bus who (t + (k + 1)) = (agentAt bus who t).advance (micSize - 1) ∧
      sectionsAt bus who (t + (k + 1)) = sectionsAt bus who t := by
  have hsections : ∀ u idx, (agentAt bus who u).pc = .read idx →
      sectionsAt bus who (u + 1) = sectionsAt bus who u := by
    intro u idx hu
    rw [sectionsAt_succ hturn, hu, if_neg fun h => Pc.noConfusion h.1]
  induction k generalizing t idx with
  | zero =>
    obtain ⟨ctl, hnext⟩ := agentAt_succ hturn t
    simp only [Agent.transact, hpc] at hnext
    rw [← hk]
    exact ⟨hnext, hsections t idx hpc⟩
  | succ k ih =>
    obtain ⟨ctl, hnext⟩ := agentAt_succ hturn t
    have hlt : idx + 1 < micSize := by omega
    simp only [Agent.transact, hpc, Agent.advance, if_pos hlt] at hnext
    obtain ⟨hagent, hsame⟩ := @ih (t + 1) (idx + 1) (by rw [hnext]) (by omega)
    rw [show t + (k + 1 + 1) = t + 1 + (k + 1) by omega, hagent, hsame, hsections t idx hpc, hnext]
    refine ⟨?_, rfl⟩
    unfold Agent.advance
    rw [show micSize - 1 + 1 = micSize by omega, if_neg (Nat.lt_irrefl _)]

/-- The reads of a section end. -/
theorem reads_end (hturn : bus.turn = some (who, refill)) {mics : List (Fin numMics)}
    {mic : Fin numMics} (hpc : (agentAt bus who t).pc = .read 0)
    (hmics : (agentAt bus who t).mics = mic :: mics) :
    ∃ u, (agentAt bus who u).pc = .select ∧
      (agentAt bus who u).rest = (agentAt bus who t).rest ∧
      sectionsAt bus who u = sectionsAt bus who t := by
  have hsize : 0 + (micSize - 1) + 1 = micSize := by decide
  obtain ⟨hagent, hsections⟩ := read_mic hturn hpc hsize
  unfold Agent.advance at hagent
  rw [if_neg (show ¬micSize - 1 + 1 < micSize by omega), hmics, List.tail_cons] at hagent
  induction mics generalizing t mic with
  | nil => exact ⟨_, by rw [hagent]; rfl, by rw [hagent], hsections⟩
  | cons mic' mics ih =>
    have hpc' := congrArg Agent.pc hagent
    have hmics' := congrArg Agent.mics hagent
    obtain ⟨hagent', hsections'⟩ := read_mic hturn hpc' hsize
    unfold Agent.advance at hagent'
    rw [if_neg (show ¬micSize - 1 + 1 < micSize by omega), hmics', List.tail_cons] at hagent'
    obtain ⟨u, hselect, hrest, hsame⟩ := ih hpc' hmics' hagent' hsections'
    exact ⟨u, hselect, by rw [hrest, hagent], hsame.trans hsections⟩

/-- A section ends. -/
theorem section_ends (hturn : bus.turn = some (who, refill)) {sec : Section} {rest : List Section}
    (hpc : (agentAt bus who t).pc = .select)
    (hnext : (agentAt bus who t).next refill = (sec, rest)) (hmics : sec.mics ≠ []) :
    ∃ u, (agentAt bus who u).pc = .select ∧ (agentAt bus who u).rest = rest ∧
      sectionsAt bus who u = sectionsAt bus who (t + 1) := by
  obtain ⟨hpoll, hmics', hrest, hsections⟩ := poll_of_select hturn hpc hnext
  obtain ⟨u, hagent, hsame, hdone⟩ := wait_ends hturn hpoll (by rwa [hmics'])
  rw [← hagent] at hpoll hmics' hrest
  obtain ⟨ctl, hreads⟩ := agentAt_succ hturn u
  obtain ⟨mic, mics, hcons⟩ := List.exists_cons_of_ne_nil hmics
  simp only [Agent.transact, hpoll, hdone, if_true, Agent.enterReads, hmics', hcons,
    List.isEmpty_cons, Bool.false_eq_true, if_false] at hreads
  have hsections' : sectionsAt bus who (u + 1) = sectionsAt bus who u := by
    rw [sectionsAt_succ hturn, hpoll, if_neg fun h => Pc.noConfusion h.1]
  obtain ⟨v, hselect, hrest', hsame'⟩ := reads_end hturn (congrArg Agent.pc hreads)
    (congrArg Agent.mics hreads)
  refine ⟨v, hselect, ?_, ?_⟩
  · rw [hrest', hreads]
    exact hrest
  · rw [hsame', hsections', hsame, hsections]

theorem rest_ends (hturn : bus.turn = some (who, refill)) {rest : List Section}
    (hpc : (agentAt bus who t).pc = .select) (hrest : (agentAt bus who t).rest = rest)
    (hmics : ∀ sec ∈ rest, sec.mics ≠ []) :
    ∃ u, (agentAt bus who u).pc = .select ∧ (agentAt bus who u).rest = [] ∧
      sectionsAt bus who u = sectionsAt bus who t := by
  induction rest generalizing t with
  | nil => exact ⟨t, hpc, hrest, rfl⟩
  | cons sec rest ih =>
    have hnext : (agentAt bus who t).next refill = (sec, rest) := by rw [Agent.next, hrest]
    obtain ⟨u, hselect, hrest', hsame⟩ := section_ends hturn hpc hnext
      (hmics sec List.mem_cons_self)
    obtain ⟨v, hselect', hnil, hsame'⟩ := ih hselect hrest' fun sec hsec =>
      hmics sec (List.mem_cons_of_mem _ hsec)
    refine ⟨v, hselect', hnil, ?_⟩
    rw [hsame', hsame, sectionsAt_succ hturn, hrest, if_neg fun h => List.cons_ne_nil _ _ h.2]

/-- The command ends. -/
theorem command_ends (hturn : bus.turn = some (who, refill))
    (hmics : ∀ sec ∈ refill.1 :: refill.2, sec.mics ≠ []) :
    ∃ t, Through (stateAt bus t) who ∧
      ((stateAt bus t).log who).sections = refill.1 :: refill.2 := by
  have hpc : (agentAt bus who 0).pc = .select := powerUp_idle who
  have hrest : (agentAt bus who 0).rest = [] := by cases who <;> rfl
  have hnext : (agentAt bus who 0).next refill = (refill.1, refill.2) := by rw [Agent.next, hrest]
  obtain ⟨u, hselect, hrest', hsame⟩ := section_ends hturn hpc hnext
    (hmics _ List.mem_cons_self)
  obtain ⟨t, hselect', hnil, hsame'⟩ := rest_ends hturn hselect hrest' fun sec hsec =>
    hmics sec (List.mem_cons_of_mem _ hsec)
  refine ⟨t, ⟨hselect', hnil⟩, ?_⟩
  show sectionsAt bus who t = _
  rw [hsame', hsame, sectionsAt_succ hturn, if_pos ⟨hpc, hrest⟩]

end Alone

end Rounds
