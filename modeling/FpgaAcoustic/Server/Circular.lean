-- SUMMARY: Start-up with circular dependencies: the start ends and the server exits, but a call of get returns an incomplete driver.
import FpgaAcoustic.Server.Startup

/-!
# Circular dependencies

The container finds a circular dependency when it is asked for a driver whose
constructor is running. The error goes up to `alloc_driver`, which has no result,
so `get` goes on and dereferences the pointer of the driver. The constructor that
has called it completes.
-/

namespace Koheron.Startup

open DriverManager

/-! ## What a request has to do -/

section Graph

variable {n : ℕ}

/-- The driver needs one that needs itself. -/
def ReachesCycle (gets : Fin n → List (Fin n)) (d : Fin n) : Prop :=
  ∃ e, Relation.ReflTransGen (Gets gets) d e ∧ Relation.TransGen (Gets gets) e e

/-- The start ends, the server is to exit, and no call of `get` has returned a
driver before its constructor has completed. -/
structure SafelyExits (s : Startup n) : Prop where
  terminates : ∀ d, .tooDeep d ∉ s.log
  exits : s.manager.exitAll = true
  returned : ∀ d pointer before after, s.log = before ++ .returned d pointer :: after →
    pointer = true ∧ .completes d ∈ before

/-- The server is to exit, and a call of `get` has returned a driver whose
constructor had not completed. -/
structure Broken (s : Startup n) : Prop where
  exits : s.manager.exitAll = true
  returned : ∃ d pointer before after, s.log = before ++ .returned d pointer :: after ∧
    .completes d ∉ before

theorem Broken.not_safelyExits {s : Startup n} (h : s.Broken) : ¬ s.SafelyExits := by
  obtain ⟨d, pointer, before, after, hlog, hcompletes⟩ := h.returned
  exact fun hsafe => hcompletes (hsafe.returned d pointer before after hlog).2

/-! ## What has happened stays -/

/-- The log is continued, and a server that is to exit stays so. -/
structure Grows (s s' : Startup n) : Prop where
  log : s.log <+: s'.log
  exits : s.manager.exitAll = true → s'.manager.exitAll = true

variable {s s' s'' : Startup n} {gets : Fin n → List (Fin n)} {d : Fin n}

theorem Grows.refl (s : Startup n) : Grows s s := ⟨List.prefix_rfl, id⟩

theorem Grows.trans (h : Grows s s') (h' : Grows s' s'') : Grows s s'' :=
  ⟨h.log.trans h'.log, fun hexit => h'.exits (h.exits hexit)⟩

theorem grows_record (s : Startup n) (e : StartEvent n) : Grows s (s.record e) :=
  ⟨List.prefix_append _ _, id⟩

theorem Broken.grows (h : s.Broken) (hgrows : Grows s s') : s'.Broken := by
  obtain ⟨d, pointer, before, after, hlog, hcompletes⟩ := h.returned
  obtain ⟨more, hmore⟩ := hgrows.log
  refine ⟨hgrows.exits h.exits, d, pointer, before, after ++ more, ?_, hcompletes⟩
  rw [← hmore, hlog, List.append_assoc, List.cons_append]

/-- The circular dependency that `DriverContainer::alloc` reports, and what
`alloc_driver` does then. -/
def refuses (s : Startup n) (d : Fin n) : Startup n :=
  { s with manager := { s.manager with exitAll := true } }.record (.circular d)

theorem ensureStarted_grows {alloc : Fin n → Startup n → Startup n}
    (halloc : ∀ e s, Grows s (alloc e s)) (d : Fin n) (s : Startup n) :
    Grows s (ensureStarted alloc d s) := by
  unfold ensureStarted
  split
  · exact Grows.refl s
  · exact halloc d s

theorem construct_grows {alloc : Fin n → Startup n → Startup n}
    (halloc : ∀ e s, Grows s (alloc e s)) (needed : List (Fin n)) (s : Startup n) :
    Grows s (construct alloc needed s) := by
  induction needed generalizing s with
  | nil => exact Grows.refl s
  | cons e needed ih =>
    have hget : Grows s (getWith alloc e s) :=
      (ensureStarted_grows halloc e s).trans (grows_record _ _)
    exact hget.trans (ih _)

theorem allocDriver_grows (gets : Fin n → List (Fin n)) (depth : ℕ) (d : Fin n) (s : Startup n) :
    Grows s (allocDriver gets depth d s) := by
  induction depth generalizing d s with
  | zero => exact grows_record s _
  | succ depth ih =>
    unfold allocDriver
    split_ifs
    · exact Grows.refl s
    · exact ⟨List.prefix_rfl, id⟩
    · exact ⟨List.prefix_append _ _, fun _ => rfl⟩
    · have hbody := construct_grows ih (gets d) (s.begins d)
      exact ⟨(List.prefix_append _ _).trans (hbody.log.trans (List.prefix_append _ _)), hbody.exits⟩

/-! ## A driver that is started -/

/-- Before a driver completes, so do all that it needs. -/
theorem Sound.completes_before (h : s.Sound gets) {before after : List (StartEvent n)}
    (hlog : s.log = before ++ .completes d :: after) {e : Fin n}
    (hneeds : Relation.TransGen (Gets gets) d e) : .completes e ∈ before := by
  induction hneeds with
  | single he => exact h.fits before _ after hlog _ he
  | @tail c e _ he ih =>
    obtain ⟨first, rest, rfl⟩ := List.append_of_mem ih
    rw [List.append_assoc] at hlog
    exact List.mem_append_left _ (h.fits first _ _ hlog e he)

/-- A driver that is started does not need itself, and needs none that does. -/
theorem Sound.not_reachesCycle (h : s.Sound gets) (hstarted : s.manager.isStarted d = true) :
    ¬ ReachesCycle gets d := by
  rintro ⟨e, hneeds, hcycle⟩
  have hmem : .completes e ∈ s.log := by
    have hd := (h.completed d).mpr hstarted
    rcases Relation.reflTransGen_iff_eq_or_transGen.mp hneeds with rfl | hneeds
    · exact hd
    · obtain ⟨before, after, hlog⟩ := List.append_of_mem hd
      rw [hlog]
      exact List.mem_append_left _ (h.completes_before hlog hneeds)
  obtain ⟨before, after, hlog, hfirst⟩ := List.eq_append_cons_of_mem hmem
  exact hfirst (h.completes_before hlog hcycle)

/-! ## One start -/

variable {alloc : Fin n → Startup n → Startup n}

/-- A call of `get` hides that the driver could not be started. -/
theorem getWith_outcome (h : s.Sound gets)
    (halloc : s.manager.isStarted d = false →
      Starts gets s (alloc d s) d ∨ Broken (alloc d s) ∨ alloc d s = s.refuses d) :
    Starts gets s (getWith alloc d s) d ∨ Broken (getWith alloc d s) := by
  cases hstarted : s.manager.isStarted d with
  | true => exact .inl (getWith_starts (fun hd => absurd (hstarted.symm.trans hd) (by simp)) h)
  | false =>
    have hget : getWith alloc d s = (alloc d s).record (.returned d ((alloc d s).driverTuple d)) := by
      rw [getWith, ensureStarted, hstarted]
      rfl
    rcases halloc hstarted with hstarts | hbroken | hrefuses
    · exact .inl (getWith_starts (fun _ => hstarts) h)
    · rw [hget]
      exact .inr (hbroken.grows (grows_record _ _))
    · rw [hget, hrefuses]
      refine .inr ⟨rfl, d, _, s.log ++ [.circular d], [], rfl, ?_⟩
      intro hmem
      have hlog : .completes d ∈ s.log := by simpa using hmem
      rw [h.completed d, hstarted] at hlog
      exact Bool.noConfusion hlog

/-- A constructor starts the drivers that it gets, or goes on with one that is
not. -/
theorem construct_outcome {P : Startup n → Prop} (hP : ∀ s s', P s → Extends s s' → P s')
    (hgrows : ∀ e s, Grows s (alloc e s)) (needed : List (Fin n))
    (halloc : ∀ e ∈ needed, ∀ s : Startup n, s.Sound gets → P s →
      Starts gets s (alloc e s) e ∨ Broken (alloc e s) ∨ alloc e s = s.refuses e)
    (h : s.Sound gets) (hs : P s) :
    ((construct alloc needed s).Sound gets ∧ Extends s (construct alloc needed s) ∧
      ∀ e ∈ needed, (construct alloc needed s).manager.isStarted e = true) ∨
      (construct alloc needed s).Broken := by
  induction needed generalizing s with
  | nil => exact .inl ⟨h, Extends.refl s, fun _ he => absurd he List.not_mem_nil⟩
  | cons e needed ih =>
    rcases getWith_outcome h fun _ => halloc e (List.mem_cons_self ..) s h hs with
      ⟨hsound, hextends, hstarted⟩ | hbroken
    · rcases ih (fun c hc => halloc c (List.mem_cons_of_mem e hc)) hsound (hP s _ hs hextends) with
        ⟨hsound', hextends', hrest⟩ | hbroken
      · refine .inl ⟨hsound', hextends.trans hextends', fun c hc => ?_⟩
        rcases List.mem_cons.mp hc with rfl | hc
        · exact hextends'.started c hstarted
        · exact hrest c hc
      · exact .inr hbroken
    · exact .inr (hbroken.grows (construct_grows hgrows needed _))

/-- A driver is started, or a constructor has got one that is not, or its own
constructor is running. -/
theorem allocDriver_outcome (depth : ℕ) (d : Fin n) (h : s.Sound gets)
    (hdepth : s.manager.unstarted.card < depth) :
    Starts gets s (allocDriver gets depth d s) d ∨ Broken (allocDriver gets depth d s) ∨
      s.manager.containerStarting d = true ∧ allocDriver gets depth d s = s.refuses d := by
  induction depth generalizing d s with
  | zero => omega
  | succ depth ih =>
    unfold allocDriver
    split_ifs with hstarted hcontainer hstarting
    · exact .inl ⟨h, Extends.refl s, hstarted⟩
    · exact absurd (h.consistent.container ▸ hcontainer) hstarted
    · exact .inr (.inr ⟨hstarting, rfl⟩)
    · have hfalse : s.manager.containerStarting d = false := Bool.not_eq_true _ ▸ hstarting
      have hfewer := card_unstarted_lt hfalse
      have hbegins := h.begins (Bool.not_eq_true _ ▸ hstarted) hfalse
      have hbody := @construct_outcome n (s.begins d) gets (allocDriver gets depth)
        (fun s' => s'.manager.containerStarting = (s.begins d).manager.containerStarting)
        (fun _ _ hs' hextends => hextends.starting.trans hs') (allocDriver_grows gets depth)
        (gets d) (fun e _ s' hs' hsame => by
          have hcard : s'.manager.unstarted = (s.manager.setStarting d true).unstarted := by
            simp only [unstarted, hsame]
            rfl
          exact (ih e hs' (by rw [hcard]; omega)).imp_right (Or.imp_right And.right))
        hbegins rfl
      rcases hbody with ⟨hsound, hextends, hall⟩ | hbroken
      · exact .inl ⟨hsound.completes hall,
          extends_completes hextends.starting hextends.started hfalse, Function.update_self ..⟩
      · exact .inr (.inl (hbroken.grows ⟨List.prefix_append _ _, id⟩))

/-! ## The depth -/

/-- The log reports no constructors that are nested too deep. -/
def NoDeeper (s : Startup n) : Prop := ∀ d, .tooDeep d ∉ s.log

theorem NoDeeper.record (h : s.NoDeeper) {e : StartEvent n} (he : ∀ d, .tooDeep d ≠ e) :
    (s.record e).NoDeeper := by
  intro d hd
  rcases List.mem_append.mp hd with hd | hd
  · exact h d hd
  · exact he d (List.mem_singleton.mp hd)

variable (gets) in
/-- What the start of a driver leaves as it was, whether it succeeds or not. -/
theorem allocDriver_kept (depth : ℕ) (d : Fin n) (h : s.manager.Consistent) :
    (allocDriver gets depth d s).manager.Consistent ∧
      (allocDriver gets depth d s).manager.containerStarting = s.manager.containerStarting := by
  rw [allocDriver_manager]
  exact allocDriver_consistent depth d h

/-- Every nested constructor is one more that is running, so the nesting ends. -/
theorem allocDriver_noDeeper (depth : ℕ) (d : Fin n) (h : s.manager.Consistent)
    (hlog : s.NoDeeper) (hdepth : s.manager.unstarted.card < depth) :
    (allocDriver gets depth d s).NoDeeper := by
  induction depth generalizing d s with
  | zero => omega
  | succ depth ih =>
    unfold allocDriver
    split_ifs with hstarted hcontainer hstarting
    · exact hlog
    · exact hlog
    · exact hlog.record (by simp)
    · have hfalse : s.manager.containerStarting d = false := Bool.not_eq_true _ ▸ hstarting
      have hfewer := card_unstarted_lt hfalse
      have hbody : (construct (allocDriver gets depth) (gets d) (s.begins d)).manager.Consistent ∧
          (construct (allocDriver gets depth) (gets d) (s.begins d)).manager.containerStarting =
            (s.begins d).manager.containerStarting ∧
          (construct (allocDriver gets depth) (gets d) (s.begins d)).NoDeeper := by
        refine List.foldlRecOn (motive := fun s' : Startup n => s'.manager.Consistent ∧
          s'.manager.containerStarting = (s.begins d).manager.containerStarting ∧ s'.NoDeeper)
          (gets d) _ ⟨h.setStarting d true, rfl, hlog.record (by simp)⟩ ?_
        rintro s' ⟨hconsistent, hsame, hdeep⟩ e -
        unfold getWith ensureStarted
        split
        · exact ⟨hconsistent, hsame, hdeep.record (by simp)⟩
        · have hcard : s'.manager.unstarted = (s.manager.setStarting d true).unstarted := by
            simp only [unstarted, hsame]
            rfl
          obtain ⟨hkept, hstarting'⟩ := allocDriver_kept gets depth e hconsistent
          exact ⟨hkept, hstarting'.trans hsame,
            (ih e hconsistent hdeep (by rw [hcard]; omega)).record (by simp)⟩
      exact hbody.2.2.record (by simp)

end Graph

/-! ## Runs -/

variable {cfg : Config}

/-- The driver that a call gets or executes. -/
def target : Request cfg.n → Option (Fin cfg.n)
  | .get d => some d
  | .execute ids =>
    if h : ids.1.toNat - 2 < cfg.n then
      if 2 ≤ ids.1.toNat then some ⟨ids.1.toNat - 2, h⟩ else none
    else none

variable {s : Startup cfg.n} {r : Request cfg.n} {d : Fin cfg.n}

theorem request_of_none (h : target r = none) : request cfg s r = s := by
  cases r with
  | get d => exact absurd h (by simp [target])
  | execute ids =>
    unfold target at h
    unfold request
    dsimp only at h ⊢
    split_ifs at h ⊢ with hids hlt hle
    · exact absurd hids.1 hle
    · exact absurd hids.2 hlt
    · rfl
    · rfl

/-- A call asks for its driver, and `get` records what it returns. -/
theorem request_of_target (h : target r = some d) :
    request cfg s r = getWith (alloc cfg) d s ∨
      request cfg s r = ensureStarted (alloc cfg) d s := by
  cases r with
  | get e =>
    obtain rfl : e = d := Option.some.inj h
    exact .inl rfl
  | execute ids =>
    unfold target at h
    unfold request
    dsimp only at h ⊢
    split_ifs at h ⊢ with hids hlt hle
    · rw [Option.some.inj h]
      exact .inr rfl
    · exact absurd ⟨‹2 ≤ ids.1.toNat›, ‹ids.1.toNat - 2 < cfg.n›⟩ hids

theorem card_unstarted_lt_depth (s : Startup cfg.n) : s.manager.unstarted.card < cfg.n + 1 := by
  have hle := Finset.card_le_univ s.manager.unstarted
  rw [Fintype.card_fin] at hle
  omega

theorem request_grows (s : Startup cfg.n) (r : Request cfg.n) : Grows s (request cfg s r) := by
  have halloc : ∀ e s, Grows s (alloc cfg e s) := allocDriver_grows (gets cfg) (cfg.n + 1)
  cases htarget : target r with
  | none =>
    rw [request_of_none htarget]
    exact Grows.refl s
  | some d =>
    have hensure := ensureStarted_grows halloc d s
    rcases request_of_target (s := s) htarget with hrequest | hrequest
    · rw [hrequest]
      exact hensure.trans (grows_record _ _)
    · rw [hrequest]
      exact hensure

/-- With no constructor running, a call starts its driver or breaks the server. -/
theorem request_outcome (h : s.Sound (gets cfg)) (hidle : Idle s) (htarget : target r = some d) :
    Starts (gets cfg) s (request cfg s r) d ∨ Broken (request cfg s r) := by
  have halloc : Starts (gets cfg) s (alloc cfg d s) d ∨ Broken (alloc cfg d s) := by
    rcases allocDriver_outcome (cfg.n + 1) d h (card_unstarted_lt_depth s) with
      hstarts | hbroken | ⟨hstarting, -⟩
    · exact .inl hstarts
    · exact .inr hbroken
    · exact absurd ((hidle d).symm.trans hstarting) Bool.false_ne_true
  rcases request_of_target (s := s) htarget with hrequest | hrequest
  · rw [hrequest]
    exact getWith_outcome h fun _ => halloc.imp_right .inl
  · rw [hrequest, ensureStarted]
    split
    · exact .inl ⟨h, Extends.refl s, ‹_›⟩
    · exact halloc

/-- Between two calls either all is in order, or the server is broken. -/
def Settled (s : Startup cfg.n) : Prop := s.Sound (gets cfg) ∧ Idle s ∨ s.Broken

theorem request_settled (h : Settled s) (r : Request cfg.n) : Settled (request cfg s r) := by
  rcases h with ⟨hsound, hidle⟩ | hbroken
  · cases htarget : target r with
    | none =>
      rw [request_of_none htarget]
      exact .inl ⟨hsound, hidle⟩
    | some d =>
      refine (request_outcome hsound hidle htarget).imp_left ?_
      rintro ⟨hsound', hextends, -⟩
      exact ⟨hsound', fun e => (congrFun hextends.starting e).trans (hidle e)⟩
  · exact .inr (hbroken.grows (request_grows s r))

theorem run_settled (requests : List (Request cfg.n)) : Settled (run cfg requests) :=
  List.foldlRecOn (motive := Settled) requests _ (.inl ⟨sound_initial, fun _ => rfl⟩)
    fun _ hs r _ => request_settled hs r

/-- A call that reaches a cycle breaks the server. -/
theorem request_broken (h : Settled s) (htarget : target r = some d)
    (hcycle : ReachesCycle (gets cfg) d) : (request cfg s r).Broken := by
  rcases h with ⟨hsound, hidle⟩ | hbroken
  · refine (request_outcome hsound hidle htarget).resolve_left ?_
    rintro ⟨hsound', -, hstarted⟩
    exact hsound'.not_reachesCycle hstarted hcycle
  · exact hbroken.grows (request_grows s r)

theorem run_broken (requests : List (Request cfg.n)) (hr : r ∈ requests)
    (htarget : target r = some d) (hcycle : ReachesCycle (gets cfg) d) :
    (run cfg requests).Broken := by
  obtain ⟨before, after, rfl⟩ := List.append_of_mem hr
  rw [run, List.foldl_append, List.foldl_cons]
  refine List.foldlRecOn (motive := Broken) after _
    (request_broken (run_settled before) htarget hcycle) ?_
  exact fun s hs r' _ => hs.grows (request_grows s r')

theorem request_noDeeper (h : s.manager.Ready) (hlog : s.NoDeeper) (r : Request cfg.n) :
    (request cfg s r).manager.Ready ∧ (request cfg s r).NoDeeper := by
  have halloc : ∀ d, (alloc cfg d s).manager.Ready ∧ (alloc cfg d s).NoDeeper := fun d => by
    obtain ⟨hconsistent, hsame⟩ := allocDriver_kept (gets cfg) (cfg.n + 1) d
      h.toConsistent
    refine ⟨⟨hconsistent, fun e => (congrFun hsame e).trans (h.idle e)⟩, ?_⟩
    exact allocDriver_noDeeper (cfg.n + 1) d h.toConsistent hlog (card_unstarted_lt_depth s)
  cases htarget : target r with
  | none =>
    rw [request_of_none htarget]
    exact ⟨h, hlog⟩
  | some d =>
    have hensure : (ensureStarted (alloc cfg) d s).manager.Ready ∧
        (ensureStarted (alloc cfg) d s).NoDeeper := by
      unfold ensureStarted
      split
      · exact ⟨h, hlog⟩
      · exact halloc d
    rcases request_of_target (s := s) htarget with hrequest | hrequest
    · rw [hrequest]
      exact ⟨hensure.1, hensure.2.record (by simp)⟩
    · rw [hrequest]
      exact hensure

/-- Every start ends, whatever the constructors get. -/
theorem run_noDeeper (cfg : Config) (requests : List (Request cfg.n)) :
    (run cfg requests).NoDeeper := by
  refine (List.foldlRecOn (motive := fun s : Startup cfg.n => s.manager.Ready ∧ s.NoDeeper)
    requests (request cfg) ⟨ready_initial, fun _ => List.not_mem_nil⟩ ?_).2
  exact fun s hs r _ => request_noDeeper hs.1 hs.2 r

/-- The server is to exit after a call that reaches a cycle, but a driver that is
not complete has been returned by then. -/
theorem run_not_safelyExits (cfg : Config) (requests : List (Request cfg.n)) {r : Request cfg.n}
    (hr : r ∈ requests) {d : Fin cfg.n} (htarget : target r = some d)
    (hcycle : ReachesCycle (gets cfg) d) :
    (∀ e, .tooDeep e ∉ (run cfg requests).log) ∧ (run cfg requests).manager.exitAll = true ∧
      ¬ (run cfg requests).SafelyExits :=
  have hbroken := run_broken requests hr htarget hcycle
  ⟨run_noDeeper cfg requests, hbroken.exits, hbroken.not_safelyExits⟩

/-- Two drivers that get one another. -/
def ring : Config where
  n := 2
  driver d := ⟨[], [d.rev]⟩
  pos := Nat.two_pos

theorem ring_reachesCycle : ReachesCycle (gets ring) (0 : Fin 2) :=
  have hfirst : Gets (gets ring) (0 : Fin 2) (1 : Fin 2) := List.mem_singleton.mpr rfl
  have hsecond : Gets (gets ring) (1 : Fin 2) (0 : Fin 2) := List.mem_singleton.mpr rfl
  ⟨(0 : Fin 2), .refl, .tail (.single hfirst) hsecond⟩

theorem ring_run_not_safelyExits :
    (∀ e, .tooDeep e ∉ (run ring [.get (0 : Fin 2)]).log) ∧
      (run ring [.get (0 : Fin 2)]).manager.exitAll = true ∧
      ¬ (run ring [.get (0 : Fin 2)]).SafelyExits :=
  run_not_safelyExits ring [.get (0 : Fin 2)] (List.mem_singleton.mpr rfl) rfl ring_reachesCycle

/-- The inner call returns a null reference, and the constructor that has called
it completes. -/
theorem ring_returns_incomplete :
    (run ring [.get (0 : Fin 2)]).log =
        [.begins (0 : Fin 2), .begins (1 : Fin 2), .circular (0 : Fin 2),
          .returned (0 : Fin 2) false, .completes (1 : Fin 2), .returned (1 : Fin 2) true,
          .completes (0 : Fin 2), .returned (0 : Fin 2) true] ∧
      ¬ (run ring [.get (0 : Fin 2)]).SafelyExits := by
  have hlog : (run ring [.get (0 : Fin 2)]).log =
      [.begins (0 : Fin 2), .begins (1 : Fin 2), .circular (0 : Fin 2),
        .returned (0 : Fin 2) false, .completes (1 : Fin 2), .returned (1 : Fin 2) true,
        .completes (0 : Fin 2), .returned (0 : Fin 2) true] := by decide
  refine ⟨hlog, fun hsafe => ?_⟩
  have hpointer := (hsafe.returned (0 : Fin 2) false
    [.begins (0 : Fin 2), .begins (1 : Fin 2), .circular (0 : Fin 2)] _ hlog).1
  exact Bool.false_ne_true hpointer

end Koheron.Startup
