-- SUMMARY: The line of the LEDs from the reset on: when its frames start, and the picture that a receiver has from each frame after two scans.
import FpgaAcoustic.Rtl.Leds

/-!
# Display

Nothing that is written changes when a frame starts, so the frames of a run are
known from its reset. A frame shows the colours as the scans have left them once
each scan writes what the one before has written.
-/

namespace Ws2812

open Clocked PulseWidth

section Frames

variable {P : Params} {s : P.Regs} {inp : ℕ → In} {mem : ℕ → BitVec 24} {m t f T u : ℕ}

/-! ## The frames of a run -/

/-- The bits go out in their time, whatever they are. -/
theorem idle_of_at (hP : P.Wf) (hreset : NoReset inp f T) (hf : f ≤ t)
    (hT : t + (m + 1) * (P.tPeriod + 1) ≤ T) (h : At m P.tPeriod (run s inp t)) :
    (∀ v, t ≤ v → v < t + (m + 1) * (P.tPeriod + 1) → (run s inp v).state = stateData) ∧
      Idle P.tReset (run s inp (t + (m + 1) * (P.tPeriod + 1))) := by
  induction m generalizing t with
  | zero =>
    rw [Nat.zero_add, Nat.one_mul] at hT ⊢
    have hend := at_of_bit hreset hf (by omega) h le_rfl
    rw [Nat.sub_self] at hend
    exact ⟨fun v htv hv => state_of_bit hreset hf (by omega) h htv hv,
      hend.last (hreset (t + P.tPeriod) (by omega) (by omega))⟩
  | succ m ih =>
    have hsplit : (m + 1 + 1) * (P.tPeriod + 1) = P.tPeriod + 1 + (m + 1) * (P.tPeriod + 1) := by
      rw [Nat.succ_mul, Nat.add_comm]
    rw [hsplit, ← Nat.add_assoc] at hT ⊢
    have hend := at_of_bit hreset hf (by omega) h le_rfl
    rw [Nat.sub_self] at hend
    have hnext : At m P.tPeriod (run s inp (t + (P.tPeriod + 1))) :=
      hend.next hP.tOff (hreset (t + P.tPeriod) (by omega) (by omega))
    obtain ⟨hstate, hidle⟩ := ih (t := t + (P.tPeriod + 1)) (by omega) hT hnext
    refine ⟨fun v htv hv => ?_, hidle⟩
    rcases Nat.lt_or_ge v (t + (P.tPeriod + 1)) with hlt | hge
    · exact state_of_bit hreset hf (by omega) h htv hlt
    · exact hstate v hge hv

/-- A frame that has started is followed by the next one. -/
theorem Starts.next (hP : P.Wf) (hreset : NoReset inp 1 (u + P.frameCycles)) (hu : 1 ≤ u)
    (h : Starts s inp u) : Starts s inp (u + P.frameCycles) ∧
      ∀ v, u < v → v < u + P.frameCycles → ¬ Starts s inp v := by
  have hleds := hP.numLeds
  have hbits : 24 * P.numLeds - 1 + 1 = 24 * P.numLeds := by omega
  have hframe : u + P.frameCycles = u + P.dataCycles + P.tReset + 1 := by
    rw [Params.frameCycles, ← Nat.add_assoc, ← Nat.add_assoc]
  rw [hframe] at hreset
  have hend : u + (24 * P.numLeds - 1 + 1) * (P.tPeriod + 1) = u + P.dataCycles := by
    rw [hbits, Params.dataCycles]
  obtain ⟨hstate, hidle⟩ := idle_of_at hP hreset hu (by omega) (h.at hP)
  rw [hend] at hstate hidle
  rw [hframe]
  refine ⟨starts_of_idle hP hreset (by omega) (by omega) hidle, fun v huv hv => ?_⟩
  exact not_starts_before hreset (by omega) (by omega) hstate hidle huv (by omega)

/-- The cycle in which frame `n` after the reset starts. -/
def Params.frameStart (P : Params) (n : ℕ) : ℕ := 1 + P.tReset + 1 + P.frameCycles * n

theorem noReset_of_first (hreset : ResetFirst fun t => (inp t).reset) (T : ℕ) : NoReset inp 1 T :=
  fun _ hu _ => hreset.low hu

theorem starts_frameStart (hP : P.Wf) (hreset : ResetFirst fun t => (inp t).reset) (s : P.Regs)
    (n : ℕ) : Starts s inp (P.frameStart n) := by
  induction n with
  | zero =>
    have hidle : Idle P.tReset (run s inp 1) := idle_of_reset hreset.rst_zero s
    exact starts_of_idle hP (noReset_of_first hreset _) le_rfl le_rfl hidle
  | succ n ih =>
    have hone : 1 ≤ P.frameStart n := by
      unfold Params.frameStart
      omega
    have hnext : P.frameStart (n + 1) = P.frameStart n + P.frameCycles := by
      rw [Params.frameStart, Nat.mul_succ, ← Nat.add_assoc, Params.frameStart]
    rw [hnext]
    exact (ih.next hP (noReset_of_first hreset _) hone).1

/-- The frames start in these cycles, and in no other. -/
theorem starts_iff (hP : P.Wf) (hreset : ResetFirst fun t => (inp t).reset) (s : P.Regs) (u : ℕ) :
    Starts s inp u ↔ ∃ n, u = P.frameStart n := by
  refine ⟨fun hstart => ?_, fun ⟨n, hn⟩ => hn ▸ starts_frameStart hP hreset s n⟩
  have hidle : Idle P.tReset (run s inp 1) := idle_of_reset hreset.rst_zero s
  rcases Nat.lt_or_ge u (P.frameStart 0) with hlt | hge
  · have hlast : u ≤ 1 + P.tReset := Nat.le_of_lt_succ hlt
    rcases Nat.lt_or_ge 1 u with hone | hone
    · exact absurd hstart (not_starts_before (noReset_of_first hreset (1 + P.tReset)) le_rfl le_rfl
        (fun v hv hv1 => absurd hv (by omega)) hidle hone hlast)
    · obtain ⟨t, rfl, -, hdata⟩ := hstart
      obtain rfl : t = 0 := by omega
      exact absurd (hidle.state.symm.trans hdata) (by decide)
  · obtain ⟨k, rfl⟩ := Nat.exists_eq_add_of_le hge
    have hpos : 0 < P.frameCycles := by
      unfold Params.frameCycles
      omega
    have hone : 1 ≤ P.frameStart (k / P.frameCycles) := by
      unfold Params.frameStart
      omega
    have hdiv := Nat.div_add_mod k P.frameCycles
    have hmod := Nat.mod_lt k hpos
    rcases Nat.eq_zero_or_pos (k % P.frameCycles) with hzero | hrest
    · refine ⟨k / P.frameCycles, ?_⟩
      unfold Params.frameStart
      omega
    · refine absurd hstart (((starts_frameStart hP hreset s (k / P.frameCycles)).next hP
        (noReset_of_first hreset _) hone).2 _ ?_ ?_)
      · unfold Params.frameStart
        omega
      · unfold Params.frameStart
        omega

/-- What a receiver has from a frame during which the words stay. -/
theorem receive_frame (hP : P.Wf) (hreset : ResetFirst fun t => (inp t).reset) (n : ℕ)
    (hmem : Unchanged s inp mem (P.frameStart n) (P.frameStart n + P.dataCycles)) {threshold : ℕ}
    (hoff : P.tOff ≤ threshold) (hon : threshold < P.tOn) :
    receive threshold (span (line s inp) (P.frameStart n + 1) P.frameCycles) =
      frameBits P.numLeds mem := by
  have hone : 1 ≤ P.frameStart n := by
    unfold Params.frameStart
    omega
  have hlow : ∀ T, NoReset inp (P.frameStart n) T := fun T u hu _ => hreset.low (hone.trans hu)
  obtain ⟨hline, -, hidle⟩ := (starts_frameStart hP hreset s n).sends hP (hlow _) hmem
  rw [Params.frameCycles, span_add, Nat.add_right_comm,
    span_idle (hlow _) (Nat.le_add_right _ P.dataCycles) le_rfl hidle, hline]
  exact receive_encode (code hP) hoff hon _ _

end Frames

end Ws2812

namespace Leds

/-! ## The line of the controller -/

section Line

variable {sel : BitVec 8} {s : Regs} {inp : ℕ → In}

/-- The inputs of the instance. -/
def ws2812In (s : Regs) (inp : ℕ → In) (t : ℕ) : Ws2812.In where
  rgbData := (run s inp t).ledRgbData
  ledNum := (run s inp t).ledNum
  write := (run s inp t).ledWrite
  reset := (inp t).reset

theorem run_ws2812 (t : ℕ) :
    (run s inp t).ws2812 = Ws2812.run s.ws2812 (ws2812In s inp) t := by
  induction t with
  | zero => rfl
  | succ t ih => exact congrArg (Ws2812.step · _) ih

/-- `ws_data`. -/
def wsData (s : Regs) (inp : ℕ → In) (t : ℕ) : Bool := (run s inp t).ws2812.data

theorem ws2812Params_wf : ws2812Params.Wf := ⟨by decide, by decide, by decide, by decide⟩

/-- The picture with the LED after the selected one lit. -/
def picture (sel : BitVec 8) : List Bool :=
  Ws2812.frameBits numLeds fun j => color sel (before j)

/-- The frames of a run come at one distance from its reset on, whatever the
memory held. Two scans go by, and a receiver has the picture from every frame
that starts after them, for any threshold between the widths of the pulses. -/
theorem frames_show_picture (hreset : Clocked.ResetFirst fun t => (inp t).reset)
    (hsel : sel.toNat < numLeds) (hinp : ∀ t, (inp t).ledSel = sel) :
    (∀ u, Ws2812.Starts s.ws2812 (ws2812In s inp) u ↔ ∃ n, u = ws2812Params.frameStart n) ∧
      (∃ T, ∀ t, T ≤ t → ScannedTwice s inp t) ∧
      ∀ n, ScannedTwice s inp (ws2812Params.frameStart n) → ∀ threshold,
        ws2812Params.tOff ≤ threshold → threshold < ws2812Params.tOn →
          PulseWidth.receive threshold (Clocked.span (wsData s inp)
            (ws2812Params.frameStart n + 1) ws2812Params.frameCycles) = picture sel := by
  refine ⟨Ws2812.starts_iff ws2812Params_wf hreset s.ws2812, ?_, ?_⟩
  · obtain ⟨u, hu⟩ := exists_scanStart hsel hinp s
    exact ⟨u + 2 * scanCycles, fun t ht => ⟨u, hu, ht⟩⟩
  · rintro n ⟨u, hu, hle⟩ threshold hoff hon
    have hline : wsData s inp = Ws2812.line s.ws2812 (ws2812In s inp) := by
      funext t
      exact congrArg Ws2812.Regs.data (run_ws2812 t)
    rw [hline]
    refine Ws2812.receive_frame ws2812Params_wf hreset n ?_ hoff hon
    intro t ht _ j hj
    rw [← run_ws2812]
    exact mem_of_scannedTwice hsel hinp ⟨u, hu, hle.trans ht⟩ j hj

end Line

/-- LED 5 is selected, with a reset in the first cycle. -/
def resetFive (t : ℕ) : In := ⟨t == 0, 5⟩

theorem resetFive_frames :
    (∀ u, Ws2812.Starts zeros.ws2812 (ws2812In zeros resetFive) u ↔
        ∃ n, u = ws2812Params.frameStart n) ∧
      (∃ T, ∀ t, T ≤ t → ScannedTwice zeros resetFive t) ∧
      ∀ n, ScannedTwice zeros resetFive (ws2812Params.frameStart n) → ∀ threshold,
        ws2812Params.tOff ≤ threshold → threshold < ws2812Params.tOn →
          PulseWidth.receive threshold (Clocked.span (wsData zeros resetFive)
            (ws2812Params.frameStart n + 1) ws2812Params.frameCycles) = picture 5 :=
  frames_show_picture ⟨rfl, fun t => by simp [resetFive]⟩ (by decide) fun _ => rfl

end Leds
