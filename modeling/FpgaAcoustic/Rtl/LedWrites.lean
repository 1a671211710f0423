-- SUMMARY: The indices at which leds.v writes to ws2812.v, whatever LEDs are selected over time.
import FpgaAcoustic.Rtl.Leds

/-!
# LED writes

Up to the end of the LEDs both branches count one on, so a changing selection
does not change the index. The test for the end is made at the index after the
last LED, and by then that index is written.
-/

namespace Leds

/-! ## Specification -/

/-- What `ws2812` assumes of its caller, at the writes: the index is that of an
LED. -/
def WritesInRange (s : Regs) (inp : ℕ → In) : Prop :=
  ∀ t, (run s inp t).ledWrite = true → (run s inp t).ledNum.toNat < numLeds

/-! ## From one write to the next -/

section Writes

variable {s : Regs} {inp : ℕ → In} {u : ℕ}

theorem ledNum_of_quiet {i : In} (h : s.ledWrite = false) : (step s i).ledNum = s.ledNum := by
  have hscan := congrArg Scan.ledNum (scan_step s i)
  rwa [h, if_neg Bool.false_ne_true] at hscan

/-- A write for an LED, selected or not. -/
theorem ledNum_of_write {i : In} (h : s.ledWrite = true) (hlt : s.ledNum.toNat < numLeds) :
    (step s i).ledNum.toNat = s.ledNum.toNat + 1 := by
  have hscan := congrArg Scan.ledNum (scan_step s i)
  rw [h, if_pos rfl] at hscan
  have htick : (s.scan.tick i.ledSel).ledNum.toNat = s.ledNum.toNat + 1 := (tick_of_lt hlt).1
  rw [← htick, ← hscan]
  rfl

theorem ledNum_between (h : (run s inp u).count = 0) {k : ℕ} (hk : k < writeCycles) :
    (run s inp (u + k)).ledNum = (run s inp u).ledNum := by
  induction k with
  | zero => rfl
  | succ k ih =>
    have hquiet : (run s inp (u + k)).ledWrite = false := by
      rw [ledWrite_run h]
      exact decide_eq_false (Nat.not_dvd_of_pos_of_lt (Nat.succ_pos k) hk)
    rw [← Nat.add_assoc, run_succ, ledNum_of_quiet hquiet, ih (Nat.lt_of_succ_lt hk)]

/-- The write that ends the cycles from `u` on, at the index that they begin with. -/
theorem write_next (h : (run s inp u).count = 0) :
    (run s inp (u + 2047)).ledWrite = true ∧
      (run s inp (u + 2047)).ledNum = (run s inp u).ledNum ∧
      (run s inp (u + writeCycles)).count = 0 := by
  refine ⟨?_, ledNum_between h (by decide), ?_⟩
  · rw [ledWrite_run h]
    exact decide_eq_true (Nat.dvd_refl writeCycles)
  · rw [count_run h]
    rfl

/-- Each write counts one on, up to the end of the LEDs. -/
theorem ledNum_writes (h : (run s inp u).count = 0) (n : ℕ)
    (hn : (run s inp u).ledNum.toNat + n ≤ numLeds) :
    (run s inp (u + writeCycles * n)).count = 0 ∧
      (run s inp (u + writeCycles * n)).ledNum.toNat = (run s inp u).ledNum.toNat + n := by
  induction n with
  | zero => exact ⟨h, rfl⟩
  | succ n ih =>
    obtain ⟨hcount, hnum⟩ := ih (by omega)
    obtain ⟨hwrite, hsame, hnext⟩ := write_next hcount
    rw [Nat.mul_succ, ← Nat.add_assoc]
    refine ⟨hnext, ?_⟩
    have hlast : u + writeCycles * n + writeCycles = u + writeCycles * n + 2047 + 1 := rfl
    have hlt : (run s inp (u + writeCycles * n + 2047)).ledNum.toNat < numLeds := by
      rw [hsame, hnum]
      omega
    rw [hlast, run_succ, ledNum_of_write hwrite hlt, hsame, hnum, Nat.add_assoc]

/-- Beginning at a zero of the counter, the index after the last LED is written
at some time, or the index is past it from the start. -/
theorem exists_write_of_count (h : (run s inp u).count = 0) :
    ∃ t, (run s inp t).ledWrite = true ∧ numLeds ≤ (run s inp t).ledNum.toNat := by
  have hwrites := ledNum_writes h (numLeds - (run s inp u).ledNum.toNat)
  rcases Nat.lt_or_ge (run s inp u).ledNum.toNat numLeds with hlt | hge
  · obtain ⟨hcount, hnum⟩ := hwrites (Nat.add_sub_cancel' hlt.le).le
    obtain ⟨hwrite, hsame, -⟩ := write_next hcount
    refine ⟨_, hwrite, ?_⟩
    rw [hsame, hnum, Nat.add_sub_cancel' hlt.le]
  · obtain ⟨hwrite, hsame, -⟩ := write_next h
    refine ⟨_, hwrite, ?_⟩
    rw [hsame]
    exact hge

end Writes

/-- There is no history of the selection, and no state of the registers, from
which the index stays with the LEDs. -/
theorem not_writesInRange (s : Regs) (inp : ℕ → In) : ¬ WritesInRange s inp := by
  intro h
  obtain ⟨u, hcount⟩ := exists_count_zero s inp
  obtain ⟨t, hwrite, hge⟩ := exists_write_of_count hcount
  exact absurd (h t hwrite) (Nat.not_lt.mpr hge)

/-- From power-up on, the write number 61 is at index 60. -/
theorem selectFive_not_writesInRange :
    (run zeros selectFive 124927).ledWrite = true ∧
      (run zeros selectFive 124927).ledNum.toNat = 60 ∧ ¬ WritesInRange zeros selectFive := by
  have hzero : (run zeros selectFive 0).count = 0 := rfl
  obtain ⟨hcount, hnum⟩ := ledNum_writes hzero 60 (by decide)
  obtain ⟨hwrite, hsame, -⟩ := write_next hcount
  have hindex : (run zeros selectFive 124927).ledNum.toNat = 60 := by
    have hcycle : 124927 = 0 + writeCycles * 60 + 2047 := rfl
    rw [hcycle, hsame, hnum]
    rfl
  refine ⟨hwrite, hindex, fun h => ?_⟩
  have hlt := h 124927 hwrite
  rw [hindex] at hlt
  exact absurd hlt (by decide)

end Leds
