-- SUMMARY: The start-up of drivers whose constructors get one another: the order of the constructors, and what `get` returns.
import Mathlib.Data.Fintype.Order
import Mathlib.Logic.Relation
import FpgaAcoustic.Server.Dispatch

/-!
# Start-up

The driver manager of the dispatch, with the pointers of the container and with
a log of what the constructors do. The recursion of nested allocations goes down
the dependencies of the constructors: whichever constructors run are those of
drivers that need, in the end, the driver that is asked for.
-/

namespace Koheron

open DriverManager

/-- What is seen of the constructors and of `get`. -/
inductive StartEvent (n : ℕ)
  | begins (d : Fin n)
  | completes (d : Fin n)
  /-- The circular dependency that `DriverContainer::alloc` reports. -/
  | circular (d : Fin n)
  /-- Constructors are nested deeper than the model goes. -/
  | tooDeep (d : Fin n)
  /-- `get` dereferences the pointer of a driver, which may be null. -/
  | returned (d : Fin n) (pointer : Bool)
  deriving DecidableEq, Repr

/-- The manager, whether the pointers of `driver_tuple` are set, and the log. -/
structure Startup (n : ℕ) where
  manager : DriverManager n
  driverTuple : Fin n → Bool
  log : List (StartEvent n)

namespace Startup

section Model

variable {n : ℕ}

def initial (n : ℕ) : Startup n := ⟨DriverManager.initial n, fun _ => false, []⟩

def record (s : Startup n) (e : StartEvent n) : Startup n := { s with log := s.log ++ [e] }

/-- `is_starting` is set, and the constructor begins. -/
def begins (s : Startup n) (d : Fin n) : Startup n :=
  { s with manager := s.manager.setStarting d true }.record (.begins d)

/-- The constructor completes, `driver_tuple` gets the driver, and the container
and the manager note it. -/
def completes (s : Startup n) (d : Fin n) : Startup n :=
  { s.record (.completes d) with
    driverTuple := Function.update s.driverTuple d true
    manager := (s.manager.setStarting d false).setStarted d }

def ensureStarted (alloc : Fin n → Startup n → Startup n) (d : Fin n) (s : Startup n) :
    Startup n :=
  if s.manager.isStarted d then s else alloc d s

/-- `get`. -/
def getWith (alloc : Fin n → Startup n → Startup n) (d : Fin n) (s : Startup n) : Startup n :=
  let s := ensureStarted alloc d s
  s.record (.returned d (s.driverTuple d))

/-- The body of a constructor. -/
def construct (alloc : Fin n → Startup n → Startup n) (needed : List (Fin n)) (s : Startup n) :
    Startup n :=
  needed.foldl (fun s d => getWith alloc d s) s

/-- `alloc_driver`, with `DriverContainer::alloc` in it. -/
def allocDriver (gets : Fin n → List (Fin n)) : ℕ → Fin n → Startup n → Startup n
  | 0, d, s => s.record (.tooDeep d)
  | depth + 1, d, s =>
    if s.manager.isStarted d then s
    else if s.manager.containerStarted d then { s with manager := s.manager.setStarted d }
    else if s.manager.containerStarting d then
      { s with manager := { s.manager with exitAll := true } }.record (.circular d)
    else (construct (allocDriver gets depth) (gets d) (s.begins d)).completes d

end Model

variable (cfg : Config)

def gets (d : Fin cfg.n) : List (Fin cfg.n) := (cfg.driver d).gets

def alloc (d : Fin cfg.n) (s : Startup cfg.n) : Startup cfg.n :=
  allocDriver (gets cfg) (cfg.n + 1) d s

/-- A call of `get` or of `execute`. -/
inductive Request (n : ℕ)
  | get (d : Fin n)
  | execute (ids : BitVec 16 × BitVec 16)
  deriving DecidableEq, Repr

/-- What a call does to the drivers. -/
def request (s : Startup cfg.n) : Request cfg.n → Startup cfg.n
  | .get d => getWith (alloc cfg) d s
  | .execute ids =>
    if h : 2 ≤ ids.1.toNat ∧ ids.1.toNat - 2 < cfg.n then
      ensureStarted (alloc cfg) ⟨ids.1.toNat - 2, h.2⟩ s
    else s

/-- The server after these calls. -/
def run (requests : List (Request cfg.n)) : Startup cfg.n :=
  requests.foldl (request cfg) (initial cfg.n)

/-! ## The manager in it -/

section Manager

variable {n : ℕ}

theorem ensureStarted_manager {alloc : Fin n → Startup n → Startup n}
    {alloc' : Fin n → DriverManager n → DriverManager n}
    (h : ∀ d s, (alloc d s).manager = alloc' d s.manager) (d : Fin n) (s : Startup n) :
    (ensureStarted alloc d s).manager =
      if s.manager.isStarted d then s.manager else alloc' d s.manager := by
  unfold ensureStarted
  split
  · rfl
  · exact h d s

theorem construct_manager {alloc : Fin n → Startup n → Startup n}
    {alloc' : Fin n → DriverManager n → DriverManager n}
    (h : ∀ d s, (alloc d s).manager = alloc' d s.manager) (needed : List (Fin n))
    (s : Startup n) :
    (construct alloc needed s).manager = DriverManager.construct alloc' needed s.manager := by
  induction needed generalizing s with
  | nil => rfl
  | cons d needed ih =>
    refine (ih (getWith alloc d s)).trans ?_
    have hget : (getWith alloc d s).manager =
        if s.manager.isStarted d then s.manager else alloc' d s.manager :=
      ensureStarted_manager h d s
    rw [hget]
    rfl

theorem allocDriver_manager (gets : Fin n → List (Fin n)) (depth : ℕ) (d : Fin n)
    (s : Startup n) :
    (allocDriver gets depth d s).manager =
      DriverManager.allocDriver gets depth d s.manager := by
  induction depth generalizing d s with
  | zero => rfl
  | succ depth ih =>
    unfold allocDriver DriverManager.allocDriver
    split_ifs
    · rfl
    · rfl
    · rfl
    · show (((construct _ _ _).manager.setStarting d false).setStarted d) = _
      rw [construct_manager ih]
      rfl

variable {cfg}

theorem execute_state (m : DriverManager cfg.n) (ids : BitVec 16 × BitVec 16) :
    (DriverManager.execute cfg ids m).2 =
      if h : 2 ≤ ids.1.toNat ∧ ids.1.toNat - 2 < cfg.n then
        DriverManager.get cfg ⟨ids.1.toNat - 2, h.2⟩ m
      else m := by
  unfold DriverManager.execute
  dsimp only
  by_cases hrange : 2 ≤ ids.1.toNat ∧ ids.1.toNat - 2 < cfg.n
  · obtain ⟨hlarge, hindex⟩ := hrange
    have hid : driverId (⟨ids.1.toNat - 2, hindex⟩ : Fin cfg.n) = ids.1.toNat :=
      Nat.sub_add_cancel hlarge
    have hstart := @start_eq cfg m ⟨ids.1.toNat - 2, hindex⟩
    rw [hid] at hstart
    rw [if_neg (by omega), if_neg (by omega), dif_pos hindex, dif_pos ⟨hlarge, hindex⟩, hstart]
    unfold DriverManager.get
    split <;> rfl
  · rw [dif_neg hrange]
    rcases Nat.lt_or_ge ids.1.toNat 2 with hsmall | hlarge
    · obtain hdriver | hdriver : ids.1.toNat = 0 ∨ ids.1.toNat = 1 := by omega
      · rw [if_pos hdriver]
      · rw [if_neg (by omega), if_pos hdriver]
    · rw [if_neg (by omega), if_neg (by omega), dif_neg fun h => hrange ⟨hlarge, h⟩]

/-- The manager of the dispatch, call by call. -/
theorem request_manager (s : Startup cfg.n) (r : Request cfg.n) :
    (request cfg s r).manager =
      match r with
      | .get d => DriverManager.get cfg d s.manager
      | .execute ids => (DriverManager.execute cfg ids s.manager).2 := by
  have halloc : ∀ d s, (alloc cfg d s).manager = DriverManager.alloc cfg d s.manager :=
    allocDriver_manager (gets cfg) (cfg.n + 1)
  cases r with
  | get d => exact ensureStarted_manager halloc d s
  | execute ids =>
    simp only [request, execute_state]
    split
    · exact ensureStarted_manager halloc _ s
    · rfl

end Manager

/-! ## One event after another -/

section Events

variable {n : ℕ} {gets : Fin n → List (Fin n)} {log : List (StartEvent n)} {e : StartEvent n}

/-- What has to be in the log before an event. -/
def Fits (gets : Fin n → List (Fin n)) (before : List (StartEvent n)) : StartEvent n → Prop
  | .begins _ => True
  | .completes d => ∀ e ∈ gets d, .completes e ∈ before
  | .returned d pointer => pointer = true ∧ .completes d ∈ before
  | .circular _ | .tooDeep _ => False

/-- Every event of the log fits those before it. -/
def AllFit (gets : Fin n → List (Fin n)) (log : List (StartEvent n)) : Prop :=
  ∀ before e after, log = before ++ e :: after → Fits gets before e

theorem AllFit.append (h : AllFit gets log) (he : Fits gets log e) :
    AllFit gets (log ++ [e]) := by
  intro before e' after heq
  rcases List.eq_nil_or_concat' after with rfl | ⟨after', last, rfl⟩
  · obtain ⟨rfl, hlast⟩ := List.append_inj' heq rfl
    rwa [← List.singleton_inj.mp hlast]
  · rw [← List.cons_append, ← List.append_assoc] at heq
    exact h before e' after' (List.append_inj' heq rfl).1

theorem AllFit.of_mem (h : AllFit gets log) (he : e ∈ log) : ∃ before, Fits gets before e := by
  obtain ⟨before, after, heq⟩ := List.append_of_mem he
  exact ⟨before, h before e after heq⟩

end Events

/-! ## What a start keeps -/

section Start

variable {n : ℕ} {gets : Fin n → List (Fin n)} {s s' s'' : Startup n} {d : Fin n}

/-- The flags agree with the pointers and with the log. -/
structure Sound (gets : Fin n → List (Fin n)) (s : Startup n) : Prop where
  consistent : s.manager.Consistent
  pointer : ∀ d, s.manager.isStarted d = true → s.driverTuple d = true
  completed : ∀ d, .completes d ∈ s.log ↔ s.manager.isStarted d = true
  begun : ∀ d, .begins d ∈ s.log →
    s.manager.isStarted d = true ∨ s.manager.containerStarting d = true
  once : ∀ d, s.log.count (.begins d) ≤ 1
  fits : AllFit gets s.log
  running : s.manager.exitAll = false

/-- Drivers are only started, and the constructors that run are the same. -/
structure Extends (s s' : Startup n) : Prop where
  started : ∀ d, s.manager.isStarted d = true → s'.manager.isStarted d = true
  starting : s'.manager.containerStarting = s.manager.containerStarting

theorem Extends.refl (s : Startup n) : Extends s s := ⟨fun _ h => h, rfl⟩

theorem Extends.trans (h : Extends s s') (h' : Extends s' s'') : Extends s s'' :=
  ⟨fun d hd => h'.started d (h.started d hd), h'.starting.trans h.starting⟩

theorem sound_initial : (initial n).Sound gets where
  consistent := ready_initial.toConsistent
  pointer _ h := absurd h Bool.false_ne_true
  completed _ := ⟨fun h => absurd h List.not_mem_nil, fun h => absurd h Bool.false_ne_true⟩
  begun _ h := absurd h List.not_mem_nil
  once _ := Nat.zero_le 1
  fits before _ _ h := absurd h.symm (List.append_ne_nil_of_right_ne_nil before (List.cons_ne_nil _ _))
  running := rfl

/-- Only the entry of the driver changes, which is not starting yet. -/
theorem Sound.begins (h : s.Sound gets) (hstarted : s.manager.isStarted d = false)
    (hstarting : s.manager.containerStarting d = false) : (s.begins d).Sound gets where
  consistent := h.consistent.setStarting d true
  pointer := h.pointer
  completed e := by
    rw [← show s.manager.isStarted e = (s.begins d).manager.isStarted e from rfl, ← h.completed e]
    simp [Startup.begins, record]
  begun e he := by
    rcases eq_or_ne e d with rfl | hne
    · exact Or.inr (Function.update_self ..)
    · have hlog : .begins e ∈ s.log := by simpa [Startup.begins, record, hne] using he
      refine (h.begun e hlog).imp_right fun hstart => ?_
      exact (Function.update_of_ne hne ..).trans hstart
  once e := by
    have hnew : .begins d ∉ s.log := by
      intro hmem
      rcases h.begun d hmem with hd | hd
      · exact Bool.false_ne_true (hstarted.symm.trans hd)
      · exact Bool.false_ne_true (hstarting.symm.trans hd)
    show (s.log ++ [StartEvent.begins d]).count (StartEvent.begins e) ≤ 1
    rw [List.count_append, List.count_singleton]
    rcases eq_or_ne e d with rfl | hne
    · rw [List.count_eq_zero_of_not_mem hnew]
      simp
    · simpa [hne.symm] using h.once e
  fits := h.fits.append trivial
  running := h.running

theorem Sound.completes (h : s.Sound gets)
    (hneeded : ∀ e ∈ gets d, s.manager.isStarted e = true) : (s.completes d).Sound gets where
  consistent := (h.consistent.setStarting d false).setStarted d
  pointer e he := by
    rcases eq_or_ne e d with rfl | hne
    · exact Function.update_self ..
    · refine (Function.update_of_ne hne ..).trans (h.pointer e ?_)
      exact (Function.update_of_ne hne ..).symm.trans he
  completed e := by
    show .completes e ∈ s.log ++ [.completes d] ↔
      Function.update s.manager.isStarted d true e = true
    rcases eq_or_ne e d with rfl | hne
    · simp
    · rw [Function.update_of_ne hne, ← h.completed e]
      simp [hne]
  begun e he := by
    have hlog : .begins e ∈ s.log := by simpa [Startup.completes, record] using he
    show Function.update s.manager.isStarted d true e = true ∨
      Function.update s.manager.containerStarting d false e = true
    rcases eq_or_ne e d with rfl | hne
    · exact Or.inl (Function.update_self ..)
    · rw [Function.update_of_ne hne, Function.update_of_ne hne]
      exact h.begun e hlog
  once e := by
    show (s.log ++ [StartEvent.completes d]).count (StartEvent.begins e) ≤ 1
    simpa using h.once e
  fits := h.fits.append fun e he => (h.completed e).mpr (hneeded e he)
  running := h.running

/-- `get` of a driver that is started. -/
theorem Sound.returned (h : s.Sound gets) (hstarted : s.manager.isStarted d = true) :
    (s.record (.returned d (s.driverTuple d))).Sound gets where
  consistent := h.consistent
  pointer := h.pointer
  completed e := by simpa [record] using h.completed e
  begun e he := h.begun e (by simpa [record] using he)
  once e := by simpa [record] using h.once e
  fits := h.fits.append ⟨h.pointer d hstarted, (h.completed d).mpr hstarted⟩
  running := h.running

theorem extends_completes (hsame : s'.manager.containerStarting = (s.begins d).manager.containerStarting)
    (hstarted : ∀ e, s.manager.isStarted e = true → s'.manager.isStarted e = true)
    (hstarting : s.manager.containerStarting d = false) : Extends s (s'.completes d) where
  started e he := by
    show Function.update s'.manager.isStarted d true e = true
    rcases eq_or_ne e d with rfl | hne
    · exact Function.update_self ..
    · exact (Function.update_of_ne hne ..).trans (hstarted e he)
  starting := by
    show Function.update s'.manager.containerStarting d false = _
    rw [hsame]
    show Function.update (Function.update s.manager.containerStarting d true) d false = _
    rw [Function.update_idem, ← hstarting, Function.update_eq_self]

/-! ## Going down the dependencies -/

/-- A constructor gets a driver. -/
def Gets (gets : Fin n → List (Fin n)) (d e : Fin n) : Prop := e ∈ gets d

/-- No constructor gets its own driver in the end. -/
def Acyclic (gets : Fin n → List (Fin n)) : Prop := ∀ d, ¬ Relation.TransGen (Gets gets) d d

/-- The constructors that run are those of drivers that need this one. -/
def NeededBy (gets : Fin n → List (Fin n)) (s : Startup n) (d : Fin n) : Prop :=
  ∀ e, s.manager.containerStarting e = true → Relation.TransGen (Gets gets) e d

theorem NeededBy.congr (h : NeededBy gets s d)
    (hsame : s'.manager.containerStarting = s.manager.containerStarting) : NeededBy gets s' d :=
  fun e he => h e (by rwa [← hsame])

theorem NeededBy.begins (h : NeededBy gets s d) {e : Fin n} (he : e ∈ gets d) :
    NeededBy gets (s.begins d) e := by
  intro c hc
  rcases eq_or_ne c d with rfl | hne
  · exact Relation.TransGen.single he
  · refine (h c ?_).tail he
    exact (Function.update_of_ne hne ..).symm.trans hc

/-- What the start of a driver has to achieve. -/
def Starts (gets : Fin n → List (Fin n)) (s s' : Startup n) (d : Fin n) : Prop :=
  s'.Sound gets ∧ Extends s s' ∧ s'.manager.isStarted d = true

variable {alloc : Fin n → Startup n → Startup n}

theorem getWith_starts (hstart : s.manager.isStarted d = false → Starts gets s (alloc d s) d)
    (h : s.Sound gets) : Starts gets s (getWith alloc d s) d := by
  have hensure : Starts gets s (ensureStarted alloc d s) d := by
    unfold ensureStarted
    split
    · exact ⟨h, Extends.refl s, ‹_›⟩
    · exact hstart (Bool.not_eq_true _ ▸ ‹_›)
  obtain ⟨hsound, hextends, hstarted⟩ := hensure
  exact ⟨hsound.returned hstarted, ⟨hextends.started, hextends.starting⟩, hstarted⟩

/-- A constructor starts the drivers that it gets, one after another. -/
theorem construct_starts {P : Startup n → Prop}
    (hP : ∀ s s', P s → Extends s s' → P s') (needed : List (Fin n))
    (halloc : ∀ e ∈ needed, ∀ s : Startup n, s.Sound gets → P s → Starts gets s (alloc e s) e)
    (h : s.Sound gets) (hs : P s) :
    (construct alloc needed s).Sound gets ∧ Extends s (construct alloc needed s) ∧
      ∀ e ∈ needed, (construct alloc needed s).manager.isStarted e = true := by
  induction needed generalizing s with
  | nil => exact ⟨h, Extends.refl s, fun _ he => absurd he List.not_mem_nil⟩
  | cons e needed ih =>
    obtain ⟨hsound, hextends, hstarted⟩ :=
      getWith_starts (fun _ => halloc e (List.mem_cons_self ..) s h hs) h
    obtain ⟨hsound', hextends', hrest⟩ := ih (fun c hc => halloc c (List.mem_cons_of_mem e hc))
      hsound (hP s _ hs hextends)
    refine ⟨hsound', hextends.trans hextends', fun c hc => ?_⟩
    rcases List.mem_cons.mp hc with rfl | hc
    · exact hextends'.started c hstarted
    · exact hrest c hc

theorem allocDriver_starts (hacyclic : Acyclic gets) (depth : ℕ) (d : Fin n)
    (h : s.Sound gets) (hneeded : NeededBy gets s d)
    (hdepth : s.manager.unstarted.card < depth) :
    Starts gets s (allocDriver gets depth d s) d := by
  induction depth generalizing d s with
  | zero => omega
  | succ depth ih =>
    have hstarting : s.manager.containerStarting d = false := by
      by_contra hd
      exact hacyclic d (hneeded d (Bool.not_eq_false _ ▸ hd))
    unfold allocDriver
    split_ifs with hstarted hcontainer
    · exact ⟨h, Extends.refl s, hstarted⟩
    · exact absurd (h.consistent.container ▸ hcontainer) hstarted
    · rw [hstarting] at *
      contradiction
    · have hfewer := card_unstarted_lt hstarting
      have hbegins := h.begins (Bool.not_eq_true _ ▸ hstarted) hstarting
      obtain ⟨hsound, hextends, hall⟩ := @construct_starts n gets (s.begins d)
        (allocDriver gets depth)
        (fun s' => s'.manager.containerStarting = (s.begins d).manager.containerStarting)
        (fun _ _ hs' hextends => hextends.starting.trans hs') (gets d)
        (fun e he s' hs' hsame => ih e hs' ((hneeded.begins he).congr hsame) (by
          have hcard : s'.manager.unstarted = (s.manager.setStarting d true).unstarted := by
            simp only [unstarted, hsame]
            rfl
          rw [hcard]
          omega))
        hbegins rfl
      exact ⟨hsound.completes hall,
        extends_completes hextends.starting hextends.started hstarting, Function.update_self ..⟩

end Start

/-! ## Runs -/

variable {cfg}

/-- No constructor runs between two calls. -/
def Idle (s : Startup cfg.n) : Prop := ∀ d, s.manager.containerStarting d = false

theorem alloc_starts (hacyclic : Acyclic (gets cfg)) {s : Startup cfg.n}
    (h : s.Sound (gets cfg)) (hidle : Idle s) (d : Fin cfg.n) :
    Starts (gets cfg) s (alloc cfg d s) d := by
  have hcard : s.manager.unstarted.card ≤ cfg.n := by
    have hle := Finset.card_le_univ s.manager.unstarted
    rwa [Fintype.card_fin] at hle
  refine allocDriver_starts hacyclic (cfg.n + 1) d h (fun e he => ?_) (by omega)
  exact absurd ((hidle e).symm.trans he) Bool.false_ne_true

theorem request_sound (hacyclic : Acyclic (gets cfg)) {s : Startup cfg.n}
    (h : s.Sound (gets cfg)) (hidle : Idle s) (r : Request cfg.n) :
    (request cfg s r).Sound (gets cfg) ∧ Idle (request cfg s r) := by
  have hidle' : ∀ {s'}, Extends s s' → Idle s' := fun hextends d =>
    (congrFun hextends.starting d).trans (hidle d)
  cases r with
  | get d =>
    obtain ⟨hsound, hextends, -⟩ :=
      getWith_starts (fun _ => alloc_starts hacyclic h hidle d) h
    exact ⟨hsound, hidle' hextends⟩
  | execute ids =>
    unfold request ensureStarted
    dsimp only
    split_ifs with hrange hstarted
    · exact ⟨h, hidle⟩
    · obtain ⟨hsound, hextends, -⟩ := alloc_starts hacyclic h hidle ⟨ids.1.toNat - 2, hrange.2⟩
      exact ⟨hsound, hidle' hextends⟩
    · exact ⟨h, hidle⟩

theorem run_sound (hacyclic : Acyclic (gets cfg)) (requests : List (Request cfg.n)) :
    (run cfg requests).Sound (gets cfg) ∧ Idle (run cfg requests) := by
  refine List.foldlRecOn (motive := fun s => Sound (gets cfg) s ∧ Idle s) requests _
    ⟨sound_initial, fun _ => rfl⟩ ?_
  intro s hs r _
  exact request_sound hacyclic hs.1 hs.2 r

/-- What the log of a start-up has to show. -/
structure Orderly (s : Startup cfg.n) : Prop where
  once : ∀ d, s.log.count (.begins d) ≤ 1
  ends : ∀ d, .begins d ∈ s.log → .completes d ∈ s.log
  after : ∀ d before rest, s.log = before ++ .completes d :: rest →
    ∀ e ∈ (cfg.driver d).gets, .completes e ∈ before
  noCircular : (∀ d, .circular d ∉ s.log) ∧ s.manager.exitAll = false
  noDeeper : ∀ d, .tooDeep d ∉ s.log
  returned : ∀ d pointer before rest, s.log = before ++ .returned d pointer :: rest →
    pointer = true ∧ .completes d ∈ before

/-- Drivers without a circular dependency start in order. -/
theorem run_orderly (cfg : Config) (hacyclic : Acyclic (gets cfg))
    (requests : List (Request cfg.n)) : (run cfg requests).Orderly := by
  obtain ⟨hsound, hidle⟩ := run_sound hacyclic requests
  refine ⟨hsound.once, fun d hd => ?_, fun d before rest heq => ?_, ⟨fun d hd => ?_,
    hsound.running⟩, fun d hd => ?_, fun d pointer before rest heq => ?_⟩
  · rcases hsound.begun d hd with hstarted | hstarting
    · exact (hsound.completed d).mpr hstarted
    · exact absurd ((hidle d).symm.trans hstarting) Bool.false_ne_true
  · exact hsound.fits before _ rest heq
  · obtain ⟨_, hfits⟩ := hsound.fits.of_mem hd
    exact hfits
  · obtain ⟨_, hfits⟩ := hsound.fits.of_mem hd
    exact hfits
  · exact hsound.fits before _ rest heq

/-- A constructor gets only drivers with smaller ids, so that none is circular. -/
theorem acyclic_of_lt {n : ℕ} {gets : Fin n → List (Fin n)} (h : ∀ d, ∀ e ∈ gets d, e < d) :
    Acyclic gets := by
  intro d hd
  have hlt : ∀ a b : Fin n, Relation.TransGen (Gets gets) a b → b < a := by
    intro a b hab
    induction hab with
    | single hb => exact h a _ hb
    | tail _ hb ih => exact (h _ _ hb).trans ih
  exact lt_irrefl d (hlt d d hd)

/-- The second driver of `twoDrivers` is asked for first, and then both. -/
theorem twoDrivers_orderly :
    (run twoDrivers [.execute (3, 1), .get (0 : Fin 2), .get (1 : Fin 2)]).Orderly :=
  run_orderly twoDrivers (acyclic_of_lt (by decide)) _

end Startup

end Koheron
