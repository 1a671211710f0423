-- SUMMARY: The beats that axis_variable.v makes of sample pulses, and when a pulse is lost.
import FpgaAcoustic.Rtl.AxisStream

/-!
# Sample pulses

One flag stands for the beat that waits. A pulse sets it and a transfer clears
it, and where both happen in one cycle the transfer wins: the pulse of a cycle
in which a beat is accepted makes none.
-/

namespace AxisVariable

variable {w : ℕ}

/-- The registers after a reset. -/
def Regs.reset : Regs w := ⟨0#w, false⟩

/-- The state in each cycle of a run. -/
def run (s : Regs w) (inp : ℕ → In w) : ℕ → Regs w := Clocked.run step s inp

/-- A beat is transferred. -/
def accepted (s : Regs w) (i : In w) : Bool := s.intTvalidReg && i.mTready

/-! ## Specification -/

/-- From each pulse to the next there is a cycle in which the sink is ready for
the beat of the first; it may be that of the next pulse. -/
def Prompt (inp : ℕ → In w) : Prop :=
  ∀ t t', t < t' → (inp t).ctrl = true → (inp t').ctrl = true →
    ∃ u, t < u ∧ u ≤ t' ∧ (inp u).mTready = true

/-- One beat for each pulse. -/
structure OneBeat (s : Regs w) (inp : ℕ → In w) : Prop where
  count : ∀ T, Clocked.pulses (fun t => accepted (run s inp t) (inp t)) T +
    (run s inp T).intTvalidReg.toNat = Clocked.pulses (fun t => (inp t).ctrl) T
  kept : ∀ t, (inp t).ctrl = true → (run s inp (t + 1)).intTvalidReg = true

/-- Between two pulses the sink is ready in a cycle that is neither's. -/
def Spaced (inp : ℕ → In w) : Prop :=
  ∀ t t', t < t' → (inp t).ctrl = true → (inp t').ctrl = true →
    ∃ u, t < u ∧ u < t' ∧ (inp u).mTready = true

/-! ## One cycle -/

section Cycle

variable {s : Regs w} {i : In w}

theorem intTvalidReg_step (hreset : i.aresetn = true) :
    (step s i).intTvalidReg = (!accepted s i && (i.ctrl || s.intTvalidReg)) := by
  simp only [step, hreset, Bool.not_true, Bool.false_eq_true, if_false, intTvalidNext, accepted]
  cases i.ctrl <;> cases i.mTready <;> cases s.intTvalidReg <;> rfl

/-- A pulse while a beat waits is one too many: the flag cannot hold both. -/
theorem count_step (hreset : i.aresetn = true)
    (hfree : i.ctrl = true → s.intTvalidReg = false) :
    (accepted s i).toNat + (step s i).intTvalidReg.toNat = s.intTvalidReg.toNat + i.ctrl.toNat := by
  rw [intTvalidReg_step hreset, accepted]
  cases hctrl : i.ctrl with
  | true =>
    rw [hfree hctrl]
    rfl
  | false => cases s.intTvalidReg <;> cases i.mTready <;> rfl

end Cycle

/-! ## Runs -/

section Run

variable {s : Regs w} {inp : ℕ → In w} {t : ℕ}

theorem intTvalidReg_succ (hreset : ∀ t, (inp t).aresetn = true) (t : ℕ) :
    (run s inp (t + 1)).intTvalidReg =
      (!accepted (run s inp t) (inp t) && ((inp t).ctrl || (run s inp t).intTvalidReg)) :=
  intTvalidReg_step (hreset t)

/-- A beat that waits is that of a pulse since which the sink was not ready. -/
theorem exists_ctrl_of_valid (hreset : ∀ t, (inp t).aresetn = true)
    (hs : s.intTvalidReg = false) (hvalid : (run s inp t).intTvalidReg = true) :
    ∃ u, u < t ∧ (inp u).ctrl = true ∧ ∀ c, u < c → c < t → (inp c).mTready = false := by
  induction t with
  | zero =>
    rw [show run s inp 0 = s from rfl, hs] at hvalid
    cases hvalid
  | succ t ih =>
    rw [intTvalidReg_succ hreset, Bool.and_eq_true, Bool.not_eq_true', Bool.or_eq_true] at hvalid
    obtain ⟨hrefused, hctrl | hold⟩ := hvalid
    · exact ⟨t, Nat.lt_succ_self t, hctrl, fun c huc hct => absurd hct (by omega)⟩
    · obtain ⟨u, hut, hctrl, hquiet⟩ := ih hold
      rw [accepted, hold, Bool.true_and] at hrefused
      refine ⟨u, Nat.lt_succ_of_lt hut, hctrl, fun c huc hct => ?_⟩
      rcases (Nat.le_of_lt_succ hct).lt_or_eq with hlt | rfl
      · exact hquiet c huc hlt
      · exact hrefused

/-- A beat waits as long as the sink is not ready. -/
theorem valid_of_quiet (hreset : ∀ t, (inp t).aresetn = true) {t' : ℕ} (hle : t ≤ t')
    (hvalid : (run s inp t).intTvalidReg = true)
    (hquiet : ∀ c, t ≤ c → c < t' → (inp c).mTready = false) :
    (run s inp t').intTvalidReg = true := by
  induction t', hle using Nat.le_induction with
  | base => exact hvalid
  | succ t' hle ih =>
    have hold := ih fun c htc hct => hquiet c htc (Nat.lt_succ_of_lt hct)
    have hready := hquiet t' hle (Nat.lt_succ_self t')
    rw [intTvalidReg_succ hreset, accepted, hold, hready]
    simp

/-- No pulse comes while a beat waits. -/
theorem Spaced.free (h : Spaced inp) (hreset : ∀ t, (inp t).aresetn = true)
    (hs : s.intTvalidReg = false) (t : ℕ) (hctrl : (inp t).ctrl = true) :
    (run s inp t).intTvalidReg = false := by
  by_contra hvalid
  rw [Bool.not_eq_false] at hvalid
  obtain ⟨u, hut, hfirst, hquiet⟩ := exists_ctrl_of_valid hreset hs hvalid
  obtain ⟨c, huc, hct, hready⟩ := h u t hut hfirst hctrl
  rw [hquiet c huc hct] at hready
  cases hready

theorem Spaced.oneBeat (h : Spaced inp) (hreset : ∀ t, (inp t).aresetn = true)
    (hs : s.intTvalidReg = false) : OneBeat s inp := by
  refine ⟨fun T => ?_, fun t hctrl => ?_⟩
  · induction T with
    | zero =>
      rw [show run s inp 0 = s from rfl, hs]
      rfl
    | succ T ih =>
      have hstep := count_step (s := run s inp T) (hreset T) (h.free hreset hs T)
      show Clocked.pulses _ T + (accepted (run s inp T) (inp T)).toNat +
        (run s inp (T + 1)).intTvalidReg.toNat = Clocked.pulses _ T + (inp T).ctrl.toNat
      rw [← ih, Nat.add_assoc, Nat.add_assoc]
      exact congrArg _ hstep
  · rw [intTvalidReg_succ hreset, accepted, h.free hreset hs t hctrl, hctrl]
    rfl

/-- The beat of a pulse waits up to the next pulse at the latest, and is taken in
the cycle of that pulse when the sink was not ready before. -/
theorem OneBeat.spaced (h : OneBeat s inp) (hreset : ∀ t, (inp t).aresetn = true)
    (hprompt : Prompt inp) : Spaced inp := by
  intro t t' hlt hctrl hctrl'
  by_contra hnone
  have hquiet : ∀ c, t < c → c < t' → (inp c).mTready = false := by
    intro c htc hct
    by_contra hready
    exact hnone ⟨c, htc, hct, Bool.not_eq_false _ ▸ hready⟩
  have hready : (inp t').mTready = true := by
    obtain ⟨u, htu, hut, hready⟩ := hprompt t t' hlt hctrl hctrl'
    rcases hut.lt_or_eq with hlt' | rfl
    · rw [hquiet u htu hlt'] at hready
      cases hready
    · exact hready
  have hwaits := valid_of_quiet hreset hlt (h.kept t hctrl) fun c htc hct => hquiet c htc hct
  have hlost := h.kept t' hctrl'
  rw [intTvalidReg_succ hreset, accepted, hwaits, hready] at hlost
  cases hlost

/-- Each pulse has its beat just when none falls in the cycle in which the beat
before is accepted. -/
theorem oneBeat_iff (hreset : ∀ t, (inp t).aresetn = true) (hs : s.intTvalidReg = false)
    (hprompt : Prompt inp) : OneBeat s inp ↔ Spaced inp :=
  ⟨fun h => h.spaced hreset hprompt, fun h => h.oneBeat hreset hs⟩

end Run

/-- A pulse in cycle `0` and one in cycle `second`, with a sink that is always
ready. -/
def twice (second t : ℕ) : In 8 := ⟨true, decide (t = 0 ∨ t = second), 7, true⟩

theorem twice_prompt (second : ℕ) : Prompt (twice second) :=
  fun _ t' hlt _ _ => ⟨t', hlt, le_rfl, rfl⟩

theorem twice_oneBeat : OneBeat Regs.reset (twice 2) := by
  refine (oneBeat_iff (fun _ => rfl) rfl (twice_prompt 2)).mpr ?_
  intro t t' hlt hctrl hctrl'
  have hfirst : t = 0 ∨ t = 2 := of_decide_eq_true hctrl
  have hsecond : t' = 0 ∨ t' = 2 := of_decide_eq_true hctrl'
  exact ⟨t + 1, Nat.lt_succ_self t, by omega, rfl⟩

/-- The pulse of cycle `1` falls on the transfer of the first beat: there is one
beat in all. -/
theorem twice_not_oneBeat :
    Prompt (twice 1) ∧ Clocked.pulses (fun t => (twice 1 t).ctrl) 3 = 2 ∧
      Clocked.pulses (fun t => accepted (run Regs.reset (twice 1) t) (twice 1 t)) 3 = 1 ∧
      (run Regs.reset (twice 1) 3).intTvalidReg = false ∧ ¬ OneBeat Regs.reset (twice 1) := by
  refine ⟨twice_prompt 1, by decide, by decide, by decide, fun h => ?_⟩
  have hlost := h.kept 1 rfl
  revert hlost
  decide

end AxisVariable
