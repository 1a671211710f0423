-- SUMMARY: The captures behind the blocks of get_mics_bram: every block is read from a capture of its own.
import FpgaAcoustic.Driver.CaptureIsolation

/-!
# One capture per result

The command selects the direction again before each block, and `set_mic_sel`
starts a capture. A trace keeps the cycle in which each BRAM word was written,
and with each entry of the result the word that it was read from. The thread may
take any part in it, as the start of a capture forgets all counts before it.
-/

namespace OneCapture

open Sesenta (micSize numMics)
open Capture (addrWidth)
open CaptureIsolation

/-! ## Traces -/

/-- A BRAM word, and the cycle of the capture write that has put it there. -/
structure Cell where
  word : BitVec 32
  writtenIn : Option ℕ
  deriving DecidableEq, Repr

/-- A clock cycle, with the words of `reg_mics_data` in it. -/
structure Input where
  cycle : Cycle
  words : Fin numMics → BitVec 32

/-- An entry of `data_ret`. -/
structure Entry where
  mic : Fin numMics
  position : ℕ
  cell : Cell
  deriving DecidableEq, Repr

/-- The system in the cycle `now`, its BRAMs, and the result of the command so far. -/
structure Traced where
  state : State
  now : ℕ
  memory : Fin numMics → ℕ → Cell
  entries : List Entry

namespace Traced

def client (g : Traced) : Agent := g.state.agent .client

def counter (g : Traced) : AddrCounter.Regs addrWidth := g.state.hw.counter

/-- The BRAMs after the cycle. They share their write address and enable. -/
def written (g : Traced) (words : Fin numMics → BitVec 32) (mic : Fin numMics) : ℕ → Cell :=
  if g.counter.writeEnableReg then
    Function.update (g.memory mic) g.counter.addrCount.toNat ⟨words mic, some g.now⟩
  else g.memory mic

/-- The result after the cycle. A command that is taken up begins a new one. -/
def collected (g : Traced) : Bus → List Entry
  | .idle | .beam => g.entries
  | .client _ =>
    match g.client.pc with
    | .select => if g.client.rest.isEmpty then [] else g.entries
    | .read idx => g.entries ++ (g.client.mics.take 1).map fun mic => ⟨mic, idx, g.memory mic idx⟩
    | .loadSet | .storeSet | .loadClear | .storeClear | .poll => g.entries

end Traced

def step (g : Traced) (i : Input) : Traced where
  state := CaptureIsolation.step g.state i.cycle
  now := g.now + 1
  memory := g.written i.words
  entries := g.collected i.cycle.bus

def run (g : Traced) (inp : ℕ → Input) : ℕ → Traced := Clocked.run step g inp

/-- The trace follows the system. -/
theorem run_state (g : Traced) (inp : ℕ → Input) (t : ℕ) :
    (run g inp t).state = CaptureIsolation.run g.state (fun t => (inp t).cycle) t := by
  induction t with
  | zero => rfl
  | succ t ih => exact congrArg (CaptureIsolation.step · _) ih

/-! ## Specification -/

/-- The client has no command. -/
def ClientIdle (g : Traced) : Prop := g.client.pc = .select ∧ g.client.rest = []

/-- A call of `get_mics_bram(dir)`, from the cycle that takes it up to the cycle
after its last read. -/
structure Call (g : Traced) (inp : ℕ → Input) (dir : BitVec 32) (T T' : ℕ) : Prop where
  idle : ClientIdle (run g inp T)
  call : (inp T).cycle.bus = .client (.getMicsBram dir)
  lt : T < T'
  busy : ∀ t, T < t → t < T' → ¬ ClientIdle (run g inp t)
  returns : ClientIdle (run g inp T')

/-- Entries at the same position were written in the same cycle. -/
def FromOneCapture (entries : List Entry) : Prop :=
  ∀ e ∈ entries, ∀ e' ∈ entries, e.position = e'.position → e.cell.writtenIn = e'.cell.writtenIn

/-- The entry at position `1` of a block was written in cycle `c`. -/
def Has (mic : Fin numMics) (c : ℕ) (entries : List Entry) : Prop :=
  ∃ cell, ⟨mic, 1, cell⟩ ∈ entries ∧ cell.writtenIn = some c

/-- The second block has a later entry there than the first. -/
def Compared (entries : List Entry) : Prop :=
  ∃ c c', c < c' ∧ Has 0 c entries ∧ Has 1 c' entries

theorem Compared.not_fromOneCapture {entries : List Entry} (h : Compared entries) :
    ¬ FromOneCapture entries := by
  obtain ⟨c, c', hlt, ⟨cell, hmem, hcell⟩, cell', hmem', hcell'⟩ := h
  intro hone
  have hsame := hone _ hmem _ hmem' rfl
  rw [hcell, hcell', Option.some.injEq] at hsame
  omega

theorem Has.append {mic : Fin numMics} {c : ℕ} {entries : List Entry} (h : Has mic c entries)
    (more : List Entry) : Has mic c (entries ++ more) := by
  obtain ⟨cell, hmem, hcell⟩ := h
  exact ⟨cell, List.mem_append_left _ hmem, hcell⟩

/-! ## The first word of a capture -/

section Step

variable {g : Traced} {i : Input} {mic : Fin numMics} {S : ℕ} {dir : BitVec 32}

theorem writtenIn_written (g : Traced) (words : Fin numMics → BitVec 32) (mic : Fin numMics)
    (n : ℕ) : (g.written words mic n).writtenIn =
      if g.counter.writeEnableReg = true ∧ n = g.counter.addrCount.toNat then some g.now
      else (g.memory mic n).writtenIn := by
  unfold Traced.written
  by_cases hwe : g.counter.writeEnableReg = true
  · rw [if_pos hwe]
    by_cases hn : n = g.counter.addrCount.toNat
    · rw [hn, Function.update_self, if_pos ⟨hwe, rfl⟩]
    · rw [Function.update_of_ne hn, if_neg fun h => hn h.2]
  · rw [if_neg hwe, if_neg fun h => hwe h.1]

/-- Writes are noted with the cycles they were made in. -/
def Stamped (g : Traced) : Prop :=
  ∀ mic n c, (g.memory mic n).writtenIn = some c → c < g.now

theorem Stamped.step (h : Stamped g) (i : Input) : Stamped (step g i) := by
  intro mic n c hc
  have hwritten := writtenIn_written g i.words mic n
  show c < g.now + 1
  rw [show (OneCapture.step g i).memory mic n = g.written i.words mic n from rfl, hwritten] at hc
  split at hc
  · have hnow : g.now = c := Option.some.inj hc
    omega
  · exact Nat.lt_succ_of_lt (h mic n c hc)

/-- Word `1` was written in cycle `S` or later. -/
def WrittenSince (S : ℕ) (mic : Fin numMics) (g : Traced) : Prop :=
  ∃ c, S ≤ c ∧ (g.memory mic 1).writtenIn = some c

/-- A capture runs and has not written word `1` yet. -/
def Early (s : AddrCounter.Regs addrWidth) : Prop :=
  s.started = true ∧ s.done = false ∧
    (s.addrCount = 0#(addrWidth) ∨ s.addrCount = 1#(addrWidth) ∧ s.writeEnableReg = true)

/-- Word `1` was written in cycle `S` or later, or the running capture will do so. -/
def FirstWord (S : ℕ) (mic : Fin numMics) (g : Traced) : Prop :=
  WrittenSince S mic g ∨ Early g.counter

theorem WrittenSince.step (h : WrittenSince S mic g) (hS : S ≤ g.now) (i : Input) :
    WrittenSince S mic (step g i) := by
  obtain ⟨c, hc, hmem⟩ := h
  have hwritten := writtenIn_written g i.words mic 1
  split at hwritten
  · exact ⟨g.now, hS, hwritten⟩
  · exact ⟨c, hc, hwritten.trans hmem⟩

theorem step_counter (g : Traced) (i : Input) :
    (step g i).counter =
      AddrCounter.step g.counter { enable := i.cycle.pcmValid, start := g.state.hw.ctl.start } := by
  unfold OneCapture.step Traced.counter CaptureIsolation.step
  cases i.cycle.bus.turn <;> rfl

/-- A start brings a capture back to the word before the first. -/
theorem early_step {s : AddrCounter.Regs addrWidth} {i : AddrCounter.In}
    (h : i.start = true ∨ Early s) :
    Early (AddrCounter.step s i) ∨ s.addrCount = 1#(addrWidth) ∧ s.writeEnableReg = true := by
  rcases Bool.eq_false_or_eq_true i.start with hstart | hstart
  · rw [AddrCounter.step_start hstart]
    exact .inl ⟨rfl, rfl, .inl rfl⟩
  · obtain ⟨hstarted, hdone, hzero | hone⟩ := h.resolve_left (by rw [hstart]; exact Bool.false_ne_true)
    · left
      have hcount : s.doneCount = false := hdone
      cases hen : i.enable with
      | true =>
        have hstep : AddrCounter.step s i =
            { s with addrCount := s.addrCount + 1#(addrWidth), writeEnableReg := true } := by
          simp [AddrCounter.step, hstart, hen, hstarted]
        rw [hstep]
        exact ⟨hstarted, hdone, .inr ⟨by rw [hzero]; rfl, rfl⟩⟩
      | false =>
        have hmax : (AddrCounter.maxCount addrWidth).toNat ≠ 0 :=
          Nat.ne_of_gt (AddrCounter.maxCount_pos (by decide))
        have hstep : AddrCounter.step s i = { s with writeEnableReg := false } := by
          simp [AddrCounter.step, hstart, hen, hzero, hmax.symm]
        rw [hstep]
        exact ⟨hstarted, hdone, .inl hzero⟩
    · exact .inr hone

/-- A capture that is started, or has been since, goes on to word `1`. -/
theorem firstWord_step (hS : S ≤ g.now)
    (h : g.state.hw.ctl.start = true ∨ FirstWord S mic g) (i : Input) :
    FirstWord S mic (step g i) := by
  by_cases hwritten : WrittenSince S mic g
  · exact .inl (hwritten.step hS i)
  · have hearly : g.state.hw.ctl.start = true ∨ Early g.counter :=
      h.imp_right fun hfirst => hfirst.resolve_left hwritten
    rcases early_step (i := { enable := i.cycle.pcmValid, start := g.state.hw.ctl.start }) hearly with
      hearly | ⟨haddr, hwe⟩
    · right
      rw [step_counter]
      exact hearly
    · refine .inl ⟨g.now, hS, (writtenIn_written g i.words mic 1).trans ?_⟩
      rw [if_pos ⟨hwe, by rw [haddr]; rfl⟩]

/-- Once `done` is up, word `1` has been written. -/
theorem FirstWord.writtenSince (h : FirstWord S mic g) (hdone : g.counter.done = true) :
    WrittenSince S mic g := by
  refine h.resolve_right ?_
  rintro ⟨-, hnot, -⟩
  exact Bool.false_ne_true (hnot.symm.trans hdone)

/-! ## The sections of the command -/

/-- For the second block, the entry of the first was written before cycle `S`. -/
def Past (mic : Fin numMics) (S : ℕ) (entries : List Entry) : Prop :=
  mic = 1 → ∃ c < S, Has 0 c entries

theorem Past.mono {S' : ℕ} {entries : List Entry} (h : Past mic S entries) (hS : S ≤ S')
    (more : List Entry) : Past mic S' (entries ++ more) := by
  intro hmic
  obtain ⟨c, hc, hhas⟩ := h hmic
  exact ⟨c, hc.trans_le hS, hhas.append more⟩

/-- The block of `mic` is captured and read. From the start of the capture on,
`S` is a cycle after the reads of the blocks before it. -/
def Reading (mic : Fin numMics) (g : Traced) : Prop :=
  g.client.mics = [mic] ∧
    match g.client.pc with
    | .select => False
    | .loadSet | .storeSet => Past mic g.now g.entries
    | .loadClear => ∃ S ≤ g.now, Past mic S g.entries ∧
        (g.state.hw.ctl.start = true ∨ FirstWord S mic g)
    | .storeClear | .poll => ∃ S ≤ g.now, Past mic S g.entries ∧ FirstWord S mic g
    | .read idx => ∃ S ≤ g.now, Past mic S g.entries ∧ WrittenSince S mic g ∧
        (1 < idx → ∃ c, S ≤ c ∧ c < g.now ∧ Has mic c g.entries)

/-- The block of `mic` has been read. -/
def Finished (mic : Fin numMics) (g : Traced) : Prop :=
  g.client.pc = .select ∧
    ∃ S, Past mic S g.entries ∧ ∃ c, S ≤ c ∧ c < g.now ∧ Has mic c g.entries

/-- The client does not have the bus. -/
theorem step_other (hbus : ∀ cmd, i.cycle.bus ≠ .client cmd) :
    (step g i).client = g.client ∧ (step g i).entries = g.entries := by
  unfold OneCapture.step Traced.client CaptureIsolation.step Traced.collected
  cases hcase : i.cycle.bus with
  | idle => exact ⟨rfl, rfl⟩
  | beam => exact ⟨rfl, rfl⟩
  | client cmd => exact absurd hcase (hbus cmd)

theorem step_client {cmd : Command} (hbus : i.cycle.bus = .client cmd) :
    (step g i).client = (g.client.transact cmd.sections g.state.hw.ctl g.counter.done).2 ∧
      (step g i).state.hw.ctl =
        (g.client.transact cmd.sections g.state.hw.ctl g.counter.done).1 ∧
      (step g i).entries = g.collected i.cycle.bus := by
  unfold OneCapture.step Traced.client CaptureIsolation.step
  rw [hbus]
  exact ⟨rfl, rfl, rfl⟩

theorem Reading.other (h : Reading mic g) (hbus : ∀ cmd, i.cycle.bus ≠ .client cmd) :
    Reading mic (step g i) := by
  obtain ⟨hclient, hentries⟩ := step_other (g := g) hbus
  obtain ⟨hmics, hpc⟩ := h
  have hpast : ∀ {S}, Past mic S g.entries → Past mic S (step g i).entries := fun h => by
    rwa [hentries]
  unfold Reading
  rw [hclient]
  refine ⟨hmics, ?_⟩
  cases hcase : g.client.pc with
  | select =>
    rw [hcase] at hpc
    exact hpc
  | loadSet | storeSet =>
    rw [hcase] at hpc
    dsimp only at hpc ⊢
    rw [hentries, ← List.append_nil g.entries]
    exact hpc.mono (Nat.le_succ g.now) []
  | loadClear =>
    rw [hcase] at hpc
    obtain ⟨S, hS, hbefore, harmed⟩ := hpc
    exact ⟨S, Nat.le_succ_of_le hS, hpast hbefore, .inr (firstWord_step hS harmed i)⟩
  | storeClear | poll =>
    rw [hcase] at hpc
    obtain ⟨S, hS, hbefore, hfirst⟩ := hpc
    exact ⟨S, Nat.le_succ_of_le hS, hpast hbefore, firstWord_step hS (.inr hfirst) i⟩
  | read idx =>
    rw [hcase] at hpc
    obtain ⟨S, hS, hbefore, hwritten, hread⟩ := hpc
    refine ⟨S, Nat.le_succ_of_le hS, hpast hbefore, hwritten.step hS i, fun hidx => ?_⟩
    obtain ⟨c, hc, hnow, hhas⟩ := hread hidx
    exact ⟨c, hc, Nat.lt_succ_of_lt hnow, by rwa [hentries]⟩

theorem Finished.other (h : Finished mic g) (hbus : ∀ cmd, i.cycle.bus ≠ .client cmd) :
    Finished mic (step g i) := by
  obtain ⟨hclient, hentries⟩ := step_other (g := g) hbus
  obtain ⟨hpc, S, hpast, c, hc, hnow, hhas⟩ := h
  refine ⟨by rw [hclient]; exact hpc, S, ?_, c, hc, Nat.lt_succ_of_lt hnow, ?_⟩
  · rwa [hentries]
  · rwa [hentries]

/-- A read of the block; from position `1` on its entries have the word there. -/
theorem Reading.read (h : Reading mic g) (hstamped : Stamped g) {cmd : Command}
    (hbus : i.cycle.bus = .client cmd) {idx : ℕ} (hcase : g.client.pc = .read idx) :
    (Reading mic (step g i) ∨ Finished mic (step g i)) ∧ (step g i).client.rest = g.client.rest := by
  obtain ⟨hclient, -, hentries⟩ := step_client (g := g) hbus
  rw [hbus] at hentries
  obtain ⟨hmics, hpc⟩ := h
  unfold Agent.transact at hclient
  unfold Traced.collected at hentries
  unfold Reading Finished
  simp only [hcase, hmics] at hpc hclient hentries
  obtain ⟨S, hS, hbefore, hwritten, hread⟩ := hpc
  have hbefore' : Past mic S (step g i).entries := by
    rw [hentries]
    exact hbefore.mono le_rfl _
  -- Position `1` is read in this cycle or has been read before.
  have hread' : 1 ≤ idx → ∃ c, S ≤ c ∧ c < g.now + 1 ∧ Has mic c (step g i).entries := by
    intro hidx
    rw [hentries]
    rcases hidx.eq_or_lt with rfl | hlt
    · obtain ⟨c, hc, hcell⟩ := hwritten
      refine ⟨c, hc, Nat.lt_succ_of_lt (hstamped mic 1 c hcell), g.memory mic 1, ?_, hcell⟩
      exact List.mem_append_right _ (List.mem_singleton.mpr rfl)
    · obtain ⟨c, hc, hnow, hhas⟩ := hread hlt
      exact ⟨c, hc, Nat.lt_succ_of_lt hnow, hhas.append _⟩
  rw [hclient, Agent.advance]
  split
  · refine ⟨.inl ⟨hmics, S, Nat.le_succ_of_le hS, hbefore', hwritten.step hS i, fun hidx => ?_⟩,
      rfl⟩
    exact hread' (Nat.le_of_lt_succ hidx)
  · rename_i hlast
    have hidx : 1 ≤ idx := by
      have hsize : 2 ≤ micSize := by decide
      omega
    rw [hmics]
    exact ⟨.inr ⟨rfl, S, hbefore', hread' hidx⟩, rfl⟩

/-- A cycle of the client: the section ends with the read of the last word. -/
theorem Reading.client (h : Reading mic g) (hstamped : Stamped g) {cmd : Command}
    (hbus : i.cycle.bus = .client cmd) :
    (Reading mic (step g i) ∨ Finished mic (step g i)) ∧ (step g i).client.rest = g.client.rest := by
  obtain ⟨hclient, hctl, hentries⟩ := step_client (g := g) hbus
  rw [hbus] at hentries
  have hreading := h
  obtain ⟨hmics, hpc⟩ := h
  unfold Agent.transact at hclient hctl
  unfold Traced.collected at hentries
  unfold Reading Finished
  cases hcase : g.client.pc with
  | select =>
    rw [hcase] at hpc
    exact hpc.elim
  | loadSet =>
    simp only [hcase] at hpc hclient hentries
    rw [hclient, hentries]
    refine ⟨.inl ⟨hmics, ?_⟩, rfl⟩
    rw [← List.append_nil g.entries]
    exact hpc.mono (Nat.le_succ g.now) []
  | storeSet =>
    simp only [hcase] at hpc hclient hctl hentries
    rw [hclient, hentries, hctl]
    refine ⟨.inl ⟨hmics, g.now + 1, le_rfl, ?_, .inl (start_set _)⟩, rfl⟩
    rw [← List.append_nil g.entries]
    exact hpc.mono (Nat.le_succ g.now) []
  | loadClear =>
    simp only [hcase] at hpc hclient hentries
    obtain ⟨S, hS, hbefore, harmed⟩ := hpc
    rw [hclient, hentries]
    exact ⟨.inl ⟨hmics, S, Nat.le_succ_of_le hS, hbefore, firstWord_step hS harmed i⟩, rfl⟩
  | storeClear =>
    simp only [hcase] at hpc hclient hentries
    obtain ⟨S, hS, hbefore, hfirst⟩ := hpc
    rw [hclient, hentries]
    exact ⟨.inl ⟨hmics, S, Nat.le_succ_of_le hS, hbefore, firstWord_step hS (.inr hfirst) i⟩, rfl⟩
  | poll =>
    simp only [hcase] at hpc hclient hentries
    obtain ⟨S, hS, hbefore, hfirst⟩ := hpc
    rw [hclient, hentries]
    cases hdone : g.counter.done with
    | false =>
      rw [if_neg Bool.false_ne_true, hcase]
      exact ⟨.inl ⟨hmics, S, Nat.le_succ_of_le hS, hbefore, firstWord_step hS (.inr hfirst) i⟩, rfl⟩
    | true =>
      have hsome : g.client.mics.isEmpty = false := by
        rw [hmics]
        rfl
      rw [if_pos rfl, Agent.enterReads, hsome]
      refine ⟨.inl ⟨hmics, S, Nat.le_succ_of_le hS, hbefore,
        (hfirst.writtenSince hdone).step hS i, fun hidx => absurd hidx (by decide)⟩, rfl⟩
  | read idx => exact hreading.read hstamped hbus hcase

/-- A client with sections left takes up the next one. -/
theorem select_next {cmd : Command} {sec : Section} {rest : List Section}
    (hbus : i.cycle.bus = .client cmd) (hpc : g.client.pc = .select)
    (hrest : g.client.rest = sec :: rest) :
    (step g i).client.pc = .loadSet ∧ (step g i).client.mics = sec.mics ∧
      (step g i).client.rest = rest ∧ (step g i).entries = g.entries := by
  obtain ⟨hclient, -, hentries⟩ := step_client (g := g) hbus
  rw [hclient, hentries, hbus]
  simp [Agent.transact, Traced.collected, hpc, Agent.next, hrest]

/-- Where the command stands: at the first block, at the second, or after it. -/
def Standing (dir : BitVec 32) (g : Traced) : Prop :=
  g.client.rest = [⟨dir, [1]⟩, ⟨dir, [2]⟩, ⟨dir, [3]⟩] ∧ (Reading 0 g ∨ Finished 0 g) ∨
    g.client.rest = [⟨dir, [2]⟩, ⟨dir, [3]⟩] ∧ (Reading 1 g ∨ Finished 1 g) ∨
    g.client.rest.length ≤ 1 ∧ Compared g.entries

theorem Finished.compared (h : Finished 1 g) : Compared g.entries := by
  obtain ⟨-, S, hpast, c, hc, -, hhas⟩ := h
  obtain ⟨c₀, hlt, hhas₀⟩ := hpast rfl
  exact ⟨c₀, c, hlt.trans_le hc, hhas₀, hhas⟩

theorem Compared.collected {cmd : Command} (h : Compared g.entries) (hbusy : ¬ ClientIdle g) :
    Compared (g.collected (.client cmd)) := by
  unfold Traced.collected
  cases hpc : g.client.pc with
  | select =>
    have hrest : g.client.rest.isEmpty = false := by
      rw [Bool.eq_false_iff, ne_eq, List.isEmpty_iff]
      exact fun hrest => hbusy ⟨hpc, hrest⟩
    simpa [hrest] using h
  | read idx =>
    obtain ⟨c, c', hlt, hhas, hhas'⟩ := h
    exact ⟨c, c', hlt, hhas.append _, hhas'.append _⟩
  | loadSet | storeSet | loadClear | storeClear | poll => exact h

/-- The sections left are never more than before. -/
theorem length_rest_le {cmd : Command} (hbus : i.cycle.bus = .client cmd)
    (hbusy : ¬ ClientIdle g) : (step g i).client.rest.length ≤ g.client.rest.length := by
  obtain ⟨hclient, -, -⟩ := step_client (g := g) hbus
  rw [hclient]
  cases hpc : g.client.pc with
  | select =>
    cases hrest : g.client.rest with
    | nil => exact absurd ⟨hpc, hrest⟩ hbusy
    | cons sec rest => simp [Agent.transact, hpc, Agent.next, hrest]
  | poll =>
    simp only [Agent.transact, hpc]
    split
    · exact le_rfl
    · exact le_rfl
  | read idx =>
    simp only [Agent.transact, hpc, Agent.advance]
    split
    · exact le_rfl
    · exact le_rfl
  | loadSet | storeSet | loadClear | storeClear => simp [Agent.transact, hpc]

/-- A cycle of the command, whoever has the bus. -/
theorem Standing.step (h : Standing dir g) (hstamped : Stamped g) (hbusy : ¬ ClientIdle g)
    (i : Input) : Standing dir (step g i) := by
  by_cases hbus : ∀ cmd, i.cycle.bus ≠ .client cmd
  · obtain ⟨hclient, hentries⟩ := step_other (g := g) hbus
    unfold Standing
    rw [hclient, hentries]
    have hkeep : ∀ {mic}, Reading mic g ∨ Finished mic g →
        Reading mic (OneCapture.step g i) ∨ Finished mic (OneCapture.step g i) :=
      fun h => h.imp (·.other hbus) (·.other hbus)
    rcases h with ⟨hrest, h⟩ | ⟨hrest, h⟩ | h
    · exact .inl ⟨hrest, hkeep h⟩
    · exact .inr (.inl ⟨hrest, hkeep h⟩)
    · exact .inr (.inr h)
  · push Not at hbus
    obtain ⟨cmd, hbus⟩ := hbus
    rcases h with ⟨hrest, hreading | hfinished⟩ | ⟨hrest, hreading | hfinished⟩ | ⟨hrest, hcompared⟩
    · obtain ⟨hnext, hsame⟩ := hreading.client hstamped hbus
      exact .inl ⟨hsame.trans hrest, hnext⟩
    · -- The second block is taken up after the reads of the first.
      obtain ⟨hpc, hmics, hrest', hentries⟩ := select_next hbus hfinished.1 hrest
      refine .inr (.inl ⟨hrest', .inl ⟨hmics, ?_⟩⟩)
      obtain ⟨-, S, -, c, -, hnow, hhas⟩ := hfinished
      rw [hpc, hentries]
      exact fun _ => ⟨c, Nat.lt_succ_of_lt hnow, hhas⟩
    · obtain ⟨hnext, hsame⟩ := hreading.client hstamped hbus
      exact .inr (.inl ⟨hsame.trans hrest, hnext⟩)
    · obtain ⟨-, -, hrest', hentries⟩ := select_next hbus hfinished.1 hrest
      refine .inr (.inr ⟨by rw [hrest']; exact le_rfl, ?_⟩)
      rw [hentries]
      exact hfinished.compared
    · refine .inr (.inr ⟨(length_rest_le hbus hbusy).trans hrest, ?_⟩)
      obtain ⟨-, -, hentries⟩ := step_client (g := g) hbus
      rw [hentries, hbus]
      exact hcompared.collected hbusy

/-- The command is taken up. -/
theorem client_of_call (hidle : ClientIdle g) (hbus : i.cycle.bus = .client (.getMicsBram dir)) :
    (step g i).client = { g.client with
      pc := .loadSet
      dir := dir
      mics := [0]
      rest := [⟨dir, [1]⟩, ⟨dir, [2]⟩, ⟨dir, [3]⟩] } := by
  obtain ⟨hpc, hrest⟩ := hidle
  obtain ⟨hclient, -, -⟩ := step_client (g := g) hbus
  rw [hclient, Agent.transact, hpc]
  simp only [Agent.next, hrest]
  rfl

theorem standing_of_call (hidle : ClientIdle g) (hbus : i.cycle.bus = .client (.getMicsBram dir)) :
    Standing dir (step g i) := by
  unfold Standing Reading
  rw [client_of_call hidle hbus]
  exact .inl ⟨rfl, .inl ⟨rfl, fun hone => absurd hone (by decide)⟩⟩

end Step

/-! ## Runs -/

variable {g : Traced} {inp : ℕ → Input} {dir : BitVec 32} {T T' t : ℕ}

theorem run_succ (g : Traced) (inp : ℕ → Input) (t : ℕ) :
    run g inp (t + 1) = step (run g inp t) (inp t) := rfl

theorem run_stamped (h : Stamped g) (inp : ℕ → Input) (t : ℕ) : Stamped (run g inp t) := by
  induction t with
  | zero => exact h
  | succ t ih => exact ih.step (inp t)

theorem Call.standing (h : Call g inp dir T T') (hstamped : Stamped g) (ht : T + 1 ≤ t)
    (hT : t ≤ T') : Standing dir (run g inp t) := by
  induction t, ht using Nat.le_induction with
  | base => exact standing_of_call h.idle h.call
  | succ t ht ih =>
    exact (ih (Nat.le_of_succ_le hT)).step (run_stamped hstamped inp t) (h.busy t ht hT) (inp t)

/-- The blocks have entries of different captures. -/
theorem Call.compared (h : Call g inp dir T T') (hstamped : Stamped g) :
    Compared (run g inp T').entries := by
  obtain ⟨-, hrest⟩ := h.returns
  rcases h.standing hstamped h.lt le_rfl with ⟨hleft, -⟩ | ⟨hleft, -⟩ | ⟨-, hcompared⟩
  · exact absurd (hrest.symm.trans hleft).symm (List.cons_ne_nil _ _)
  · exact absurd (hrest.symm.trans hleft).symm (List.cons_ne_nil _ _)
  · exact hcompared

/-- A trace that begins with these words in the BRAMs. -/
def start (s : State) (words : Fin numMics → ℕ → BitVec 32) : Traced :=
  ⟨s, 0, fun mic n => ⟨words mic n, none⟩, []⟩

theorem start_stamped (s : State) (words : Fin numMics → ℕ → BitVec 32) :
    Stamped (start s words) := by
  intro mic n c hc
  exact absurd hc (Option.some_ne_none c).symm

/-- No call returns blocks of one capture, whatever the streams and the thread. -/
theorem call_not_fromOneCapture (s : State) (words : Fin numMics → ℕ → BitVec 32)
    (inp : ℕ → Input) {dir : BitVec 32} {T T' : ℕ} (h : Call (start s words) inp dir T T') :
    ¬ FromOneCapture (run (start s words) inp T').entries :=
  (h.compared (start_stamped s words)).not_fromOneCapture

/-! ## A call -/

/-- A sample in every cycle up to the last word, and the bus always for the client. -/
def demand (dir : BitVec 32) (g : Traced) : Input where
  cycle := ⟨g.counter.addrCount.toNat != (AddrCounter.maxCount addrWidth).toNat,
    .client (.getMicsBram dir)⟩
  words _ := 0#32

def served (dir : BitVec 32) (g : Traced) : Traced := step g (demand dir g)

def serving (dir : BitVec 32) (g : Traced) (t : ℕ) : Input := demand dir ((served dir)^[t] g)

theorem run_serving (dir : BitVec 32) (g : Traced) (t : ℕ) :
    run g (serving dir g) t = (served dir)^[t] g := by
  induction t with
  | zero => rfl
  | succ t ih => rw [run_succ, ih, Function.iterate_succ_apply']; rfl

/-- The cycles of a section, counted from the one that takes it up. -/
def Stage (g : Traced) (u : ℕ) : Prop :=
  u = 1 ∧ g.client.pc = .loadSet ∨
    u = 2 ∧ g.client.pc = .storeSet ∨
    u = 3 ∧ g.client.pc = .loadClear ∧ g.state.hw.ctl.start = true ∨
    u = 4 ∧ g.client.pc = .storeClear ∧ g.state.hw.ctl.start = true ∨
    (∃ n ≤ 2047, u = 5 + n ∧ g.client.pc = .poll ∧ g.state.hw.ctl.start = false ∧
      g.counter.started = true ∧ g.counter.done = false ∧ g.counter.addrCount.toNat = n) ∨
    u = 2053 ∧ g.client.pc = .poll ∧ g.counter.done = true ∨
    ∃ n < 2048, u = 2054 + n ∧ g.client.pc = .read n

/-- In cycle `u` of a section that reads `mic`. -/
structure At (mic : Fin numMics) (rest : List Section) (u : ℕ) (g : Traced) : Prop where
  mics : g.client.mics = [mic]
  rest : g.client.rest = rest
  stage : Stage g u

section Serving

variable {g : Traced} {dir : BitVec 32} {mic : Fin numMics} {rest : List Section} {u : ℕ}

theorem At.busy (h : At mic rest u g) : g.client.pc ≠ .select := by
  rcases h.stage with ⟨-, hpc⟩ | ⟨-, hpc⟩ | ⟨-, hpc, -⟩ | ⟨-, hpc, -⟩ | ⟨n, -, -, hpc, -⟩ |
    ⟨-, hpc, -⟩ | ⟨n, -, -, hpc⟩ <;> rw [hpc] <;> exact Pc.noConfusion

/-- A capture that is served counts in every cycle, and then ends. -/
theorem served_counter (dir : BitVec 32) (hstart : g.state.hw.ctl.start = false)
    (hstarted : g.counter.started = true) {n : ℕ} (hn : g.counter.addrCount.toNat = n) :
    (n < 2047 → (served dir g).counter.started = true ∧
        (served dir g).counter.done = g.counter.done ∧
        (served dir g).counter.addrCount.toNat = n + 1) ∧
      (n = 2047 → (served dir g).counter.done = true) := by
  have hmax : (AddrCounter.maxCount addrWidth).toNat = 2047 := AddrCounter.toNat_maxCount addrWidth
  have hcounter : (served dir g).counter = _ := step_counter g (demand dir g)
  have hvalid : (demand dir g).cycle.pcmValid = (n != 2047) := by rw [demand, hn, hmax]
  rw [hcounter, hvalid, hstart]
  constructor
  · intro hlt
    have hen : (n != 2047) = true := bne_iff_ne.mpr (Nat.ne_of_lt hlt)
    have hstep : AddrCounter.step g.counter { enable := n != 2047, start := false } =
        { g.counter with addrCount := g.counter.addrCount + 1#(addrWidth), writeEnableReg := true } := by
      simp [AddrCounter.step, hen, hstarted]
    rw [hstep]
    refine ⟨hstarted, rfl, ?_⟩
    rw [BitVec.toNat_add, hn, BitVec.toNat_ofNat, addrWidth]
    omega
  · rintro rfl
    simp [AddrCounter.step, AddrCounter.Regs.done, hn, hmax]

/-- A section takes `4102` cycles. -/
theorem At.served (h : At mic rest u g) (dir : BitVec 32) :
    At mic rest (u + 1) (served dir g) ∨
      u = 4101 ∧ (served dir g).client.pc = .select ∧ (served dir g).client.rest = rest := by
  obtain ⟨hmics, hrest, hstage⟩ := h
  obtain ⟨hclient, hctl, -⟩ := step_client (g := g) (i := demand dir g) rfl
  change (OneCapture.served dir g).client = _ at hclient
  change (OneCapture.served dir g).state.hw.ctl = _ at hctl
  rcases hstage with ⟨rfl, hpc⟩ | ⟨rfl, hpc⟩ | ⟨rfl, hpc, hstart⟩ | ⟨rfl, hpc, hstart⟩ |
    ⟨n, hle, rfl, hpc, hstart, hstarted, hdone, hn⟩ | ⟨rfl, hpc, hdone⟩ | ⟨n, hlt, rfl, hpc⟩
  · simp only [Agent.transact, hpc] at hclient
    refine .inl ⟨by rw [hclient]; exact hmics, by rw [hclient]; exact hrest, ?_⟩
    exact .inr (.inl ⟨rfl, by rw [hclient]⟩)
  · simp only [Agent.transact, hpc] at hclient hctl
    refine .inl ⟨by rw [hclient]; exact hmics, by rw [hclient]; exact hrest, ?_⟩
    exact .inr (.inr (.inl ⟨rfl, by rw [hclient], by rw [hctl]; exact start_set _⟩))
  · simp only [Agent.transact, hpc] at hclient hctl
    refine .inl ⟨by rw [hclient]; exact hmics, by rw [hclient]; exact hrest, ?_⟩
    exact .inr (.inr (.inr (.inl ⟨rfl, by rw [hclient], by rw [hctl]; exact hstart⟩)))
  · -- The start is seen for the last time.
    have hcounter : (OneCapture.served dir g).counter = _ := step_counter g (demand dir g)
    rw [AddrCounter.step_start hstart] at hcounter
    simp only [Agent.transact, hpc] at hclient hctl
    refine .inl ⟨by rw [hclient]; exact hmics, by rw [hclient]; exact hrest, ?_⟩
    refine .inr (.inr (.inr (.inr (.inl ⟨0, Nat.zero_le _, rfl, by rw [hclient], ?_⟩))))
    rw [hctl, hcounter]
    exact ⟨start_clear _, rfl, rfl, rfl⟩
  · simp only [Agent.transact, hpc, hdone, Bool.false_eq_true, if_false] at hclient hctl
    refine .inl ⟨by rw [hclient]; exact hmics, by rw [hclient]; exact hrest, ?_⟩
    obtain ⟨hcounts, hends⟩ := served_counter dir hstart hstarted hn
    rcases hle.lt_or_eq with hlt | heq
    · obtain ⟨hstarted', hdone', hn'⟩ := hcounts hlt
      refine .inr (.inr (.inr (.inr (.inl ⟨n + 1, hlt, rfl, by rw [hclient]; exact hpc, ?_⟩))))
      rw [hctl]
      exact ⟨hstart, hstarted', hdone'.trans hdone, hn'⟩
    · refine .inr (.inr (.inr (.inr (.inr (.inl ⟨by omega, by rw [hclient]; exact hpc, ?_⟩)))))
      exact hends heq
  · have hsome : g.client.mics.isEmpty = false := by
      rw [hmics]
      rfl
    simp only [Agent.transact, hpc, hdone, if_true, Agent.enterReads, hsome, Bool.false_eq_true,
      if_false] at hclient
    refine .inl ⟨by rw [hclient]; exact hmics, by rw [hclient]; exact hrest, ?_⟩
    exact .inr (.inr (.inr (.inr (.inr (.inr ⟨0, by decide, rfl, by rw [hclient]⟩)))))
  · have hsize : micSize = 2048 := rfl
    simp only [Agent.transact, hpc, Agent.advance, hsize] at hclient
    rcases Nat.lt_or_ge (n + 1) 2048 with hmore | hlast
    · rw [if_pos hmore] at hclient
      refine .inl ⟨by rw [hclient]; exact hmics, by rw [hclient]; exact hrest, ?_⟩
      exact .inr (.inr (.inr (.inr (.inr (.inr ⟨n + 1, hmore, rfl, by rw [hclient]⟩)))))
    · rw [if_neg hlast.not_gt, hmics] at hclient
      exact .inr ⟨by omega, by rw [hclient]; rfl, by rw [hclient]; exact hrest⟩

/-- The section from the cycle after it is taken up to the one that ends it. -/
theorem section_served (h : At mic rest 1 (served dir g)) :
    (∀ k, 1 ≤ k → k ≤ 4101 → At mic rest k ((served dir)^[k] g)) ∧
      ((served dir)^[4102] g).client.pc = .select ∧ ((served dir)^[4102] g).client.rest = rest := by
  have hall : ∀ k, 1 ≤ k → k ≤ 4101 → At mic rest k ((served dir)^[k] g) := by
    intro k hk
    induction k, hk using Nat.le_induction with
    | base => exact fun _ => h
    | succ k _ ih =>
      intro hle
      rw [Function.iterate_succ_apply']
      rcases (ih (Nat.le_of_succ_le hle)).served dir with hnext | ⟨hend, -⟩
      · exact hnext
      · omega
  have hlast := (hall 4101 (by decide) le_rfl).served dir
  rw [← Function.iterate_succ_apply' (served dir)] at hlast
  refine ⟨hall, ?_⟩
  rcases hlast with hnext | ⟨-, hend⟩
  · have hstage := hnext.stage
    unfold Stage at hstage
    omega
  · exact hend

/-- A section that is left is taken up. -/
theorem served_next {mics : List Section} (hpc : g.client.pc = .select)
    (hrest : g.client.rest = ⟨dir, [mic]⟩ :: mics) : At mic mics 1 (served dir g) := by
  obtain ⟨hpc', hmics, hrest', -⟩ := select_next (i := demand dir g) rfl hpc hrest
  exact ⟨hmics, hrest', .inl ⟨rfl, hpc'⟩⟩

theorem served_call (dir : BitVec 32) (h : ClientIdle g) :
    At 0 [⟨dir, [1]⟩, ⟨dir, [2]⟩, ⟨dir, [3]⟩] 1 (served dir g) := by
  have hclient : (served dir g).client = _ := client_of_call (i := demand dir g) h rfl
  exact ⟨by rw [hclient], by rw [hclient], .inl ⟨rfl, by rw [hclient]⟩⟩

/-- Of the sections that are left, each takes its cycles, and then the client is idle. -/
theorem sections_served (mics : List (Fin numMics)) (hpc : g.client.pc = .select)
    (hrest : g.client.rest = mics.map fun mic => ⟨dir, [mic]⟩) :
    (∀ t < 4102 * mics.length, ¬ ClientIdle ((served dir)^[t] g)) ∧
      ClientIdle ((served dir)^[4102 * mics.length] g) := by
  induction mics generalizing g with
  | nil => exact ⟨fun t ht => absurd ht (Nat.not_lt_zero t), hpc, hrest⟩
  | cons mic mics ih =>
    obtain ⟨hall, hpc', hrest'⟩ := section_served (served_next hpc hrest)
    obtain ⟨hbusy, hidle⟩ := ih hpc' hrest'
    rw [← Function.iterate_add_apply] at hidle
    refine ⟨fun t ht hclient => ?_, by rwa [List.length_cons, Nat.mul_succ]⟩
    rcases Nat.lt_or_ge t 4102 with hlt | hge
    · rcases Nat.eq_zero_or_pos t with rfl | hpos
      · exact List.cons_ne_nil _ _ (hrest.symm.trans hclient.2)
      · exact (hall t hpos (by omega)).busy hclient.1
    · obtain ⟨k, rfl⟩ := Nat.exists_eq_add_of_le hge
      rw [Nat.add_comm, Function.iterate_add_apply] at hclient
      rw [List.length_cons] at ht
      exact hbusy k (by omega) hclient

/-- Four sections, and the command is over. -/
theorem serving_call (dir : BitVec 32) (h : ClientIdle g) : Call g (serving dir g) dir 0 16408 := by
  obtain ⟨hall, hpc, hrest⟩ := section_served (served_call dir h)
  obtain ⟨hbusy, hidle⟩ := sections_served [1, 2, 3] hpc hrest
  rw [← Function.iterate_add_apply] at hidle
  refine ⟨h, rfl, by decide, fun t hpos hlt hclient => ?_, ?_⟩
  · rw [run_serving] at hclient
    rcases Nat.lt_or_ge t 4102 with hfirst | hge
    · exact (hall t hpos (by omega)).busy hclient.1
    · obtain ⟨k, rfl⟩ := Nat.exists_eq_add_of_le hge
      rw [Nat.add_comm, Function.iterate_add_apply] at hclient
      exact hbusy k (by simpa using (by omega : k < 12306)) hclient
  · rw [run_serving]
    exact hidle

end Serving

/-- The system after reset, with empty BRAMs. -/
def atReset : Traced := start powerUp fun _ _ => 0#32

theorem served_not_fromOneCapture :
    ¬ FromOneCapture (run atReset (serving 0#32 atReset) 16408).entries :=
  call_not_fromOneCapture powerUp (fun _ _ => 0#32) (serving 0#32 atReset)
    (serving_call 0#32 ⟨rfl, rfl⟩)

/-- Direction `0` from reset: all four streams are zero, and the thread does not run. -/
theorem reset_call_compared :
    Call atReset (serving 0#32 atReset) 0#32 0 16408 ∧
      ¬ FromOneCapture (run atReset (serving 0#32 atReset) 16408).entries := by
  have hcall : Call atReset (serving 0#32 atReset) 0#32 0 16408 :=
    serving_call 0#32 ⟨rfl, rfl⟩
  exact ⟨hcall, (hcall.compared (start_stamped powerUp _)).not_fromOneCapture⟩

end OneCapture
