-- SUMMARY: A DMA acquisition from the pins to the list that get_mics4 returns.
import FpgaAcoustic.Driver.DmaStream

/-!
# Acquisitions to memory

The driver asks for five samples more than it needs, and skips the first beat.
The beat of the last strobe waits at the closed gate, so it is the first that
comes through, and the others follow strobe by strobe. The channel stores what
it accepts up to a beat with TLAST, or up to its length.
-/

namespace DmaRead

open AxisTlast (Counts)
open Capture (delayOf)
open DmaS2MM (keptLength)
open DmaStream
open DmaTransfer (Covers startDmaTransfer)
open MicPacking (lane samplesOf)
open Pipeline (sample)
open Readers (Bank getMics4)
open Sesenta (Channel Ctl)

/-! ## The channel -/

/-- What an S2MM channel stores of the beats that it accepts, with a length in
bytes. A beat has its TLAST with it. -/
def received : ℕ → List (BitVec 256 × Bool) → List (BitVec 256)
  | _, [] => []
  | length, (beat, last) :: rest =>
    if length < 32 then []
    else beat :: if last then [] else received (length - 32) rest

/-- The words of `ram` from its start on are those of the beats. -/
def Filled (beats : List (BitVec 256)) (mem : Bank → ℕ → BitVec 32) : Prop :=
  ∀ i beat, beats[i]? = some beat → ∀ m, m < 8 → mem .ram (m + i * 8) = lane beat m

variable (ext2sc : BitVec 16 → BitVec 32)

/-- The beats of the cycles `f .. T - 1`, with their TLAST. -/
def packets (s : Regs) (inp : ℕ → In) (f T : ℕ) : List (BitVec 256 × Bool) :=
  Clocked.during (fun t => (tlastIn ext2sc s inp t).transferred)
    (fun t => ((tlastIn ext2sc s inp t).mTdata, AxisTlast.mTlast (run ext2sc s inp t).stream.tlast))
    f T

/-! ## Specification -/

/-- An acquisition of `n` samples: the gate opens in cycle `g`, between the
strobes `k` and `k + 1`, with the counter of the packets at its start. From then
on the registers are those of the driver, and every beat is accepted before the
next strobe. -/
structure Acquires (s : Regs) (inp : ℕ → In) (m : BitVec 32) (ctl : Ctl) (k n g : ℕ) : Prop where
  reset : Clocked.ResetFirst fun t => (inp t).logic.rst
  select : ∀ t, strobe k - 3 ≤ t → t ≤ strobe (k + n + 1) → (inp t).logic.micSelect = m
  after : strobe k < g
  closed : ∀ t, strobe k ≤ t → t < g → (inp t).dmaGate = false
  opened : ∀ t, g ≤ t → t ≤ strobe (k + n + 1) → (inp t).dmaGate = Channel.gen0.enable ctl
  nSamples : ∀ t, g ≤ t + 1 → t ≤ strobe (k + n + 1) → (inp t).nSamples = ctl.nSamples
  fresh : (run ext2sc s inp g).stream.tlast.cnt.toNat = 0
  ready : ∀ l, k ≤ l → l ≤ k + n →
    ∃ t, strobe l < t ∧ t < strobe (l + 1) ∧ g ≤ t ∧ (inp t).mTready = true

/-- What microphone `j` had for the beat of strobe `k`. -/
def heard (inp : ℕ → In) (m : BitVec 32) (k : ℕ) (j : Fin 4) : BitVec 16 :=
  sample (fun t => (inp t).logic) j ((k : ℤ) - (early inp k).toNat - delayOf m j)

/-! ## What is stored -/

/-- A beat is stored if none before it has TLAST and the length reaches it. -/
theorem received_getElem? {length j : ℕ} {packets : List (BitVec 256 × Bool)}
    (hlast : ∀ i, i < j → ∀ p, packets[i]? = some p → p.2 = false) (hlen : 32 * (j + 1) ≤ length) :
    (received length packets)[j]? = packets[j]?.map Prod.fst := by
  induction packets generalizing length j with
  | nil => rfl
  | cons p rest ih =>
    obtain ⟨beat, last⟩ := p
    rw [received, if_neg (by omega)]
    cases j with
    | zero => rfl
    | succ j =>
      have hfirst : last = false := hlast 0 (Nat.succ_pos j) (beat, last) rfl
      rw [hfirst, if_neg Bool.false_ne_true, List.getElem?_cons_succ, List.getElem?_cons_succ]
      exact ih (fun i hi p hp => hlast (i + 1) (Nat.succ_lt_succ hi) p hp) (by omega)

/-! ## The counter -/

section Run

variable {ext2sc} {s : Regs} {inp : ℕ → In} {m : BitVec 32} {ctl : Ctl} {k n g : ℕ}
  {times : ℕ → ℕ}

theorem step_tlast (t : ℕ) : (run ext2sc s inp (t + 1)).stream.tlast =
    AxisTlast.step (run ext2sc s inp t).stream.tlast (tlastIn ext2sc s inp t) := rfl

namespace Acquires

theorem taken (h : Acquires ext2sc s inp m ctl k n g) (henable : Channel.gen0.enable ctl = true)
    {l : ℕ} (hl : l < n + 1) : ∃ t, Taken inp (k + l) t := by
  obtain ⟨t, hlt, ht, hgt, hready⟩ := h.ready (k + l) (Nat.le_add_right k l) (by omega)
  have hle : t ≤ strobe (k + n + 1) := ht.le.trans (strobe_mono (by omega))
  refine exists_taken ⟨t, hlt, ht, ?_⟩
  rw [takes, h.opened t hgt hle, henable, hready, Bool.true_and]

theorem free (h : Acquires ext2sc s inp m ctl k n g) :
    (tlastIn ext2sc s inp (strobe k)).transferred = false := by
  rw [transferred_eq, AxisVariable.accepted, mTready_sourceIn, takes,
    h.closed _ le_rfl h.after, Bool.false_and, Bool.and_false]

theorem le_taken (h : Acquires ext2sc s inp m ctl k n g) {l t : ℕ} (ht : Taken inp (k + l) t) :
    g ≤ t := by
  by_contra hlt
  have hafter := (strobe_mono (Nat.le_add_right k l)).trans ht.after.le
  have htakes := ht.takes
  rw [takes, h.closed t hafter (Nat.lt_of_not_le hlt), Bool.false_and] at htakes
  exact Bool.false_ne_true htakes

theorem resetn (h : Acquires ext2sc s inp m ctl k n g) {t : ℕ} (ht : strobe k ≤ t) :
    (tlastIn ext2sc s inp t).resetn = true := by
  show (!(inp t).logic.rst) = true
  rw [h.reset.low ((one_le_strobe k).trans ht)]
  rfl

/-- Between the beats the counter stands still. -/
theorem counts_of_quiet (h : Acquires ext2sc s inp m ctl k n g) (hn : 1 ≤ ctl.nSamples.toNat)
    {c a b : ℕ} (hga : g ≤ a) (hab : a ≤ b) (hb : b ≤ strobe (k + n + 1))
    (hquiet : ∀ t, a ≤ t → t < b → (tlastIn ext2sc s inp t).transferred = false)
    (hcounts : Counts ctl.nSamples c (run ext2sc s inp a).stream.tlast) :
    Counts ctl.nSamples c (run ext2sc s inp b).stream.tlast := by
  induction b, hab using Nat.le_induction with
  | base => exact hcounts
  | succ b hab ih =>
    have hprev := ih (Nat.le_of_succ_le hb) fun t ht htb => hquiet t ht (Nat.lt_succ_of_lt htb)
    have hnew : (tlastIn ext2sc s inp b).newSample = false := by
      rw [← AxisTlast.In.transferred_eq]
      exact hquiet b hab (Nat.lt_succ_self b)
    have hafter := h.after
    have hstep := hprev.step hn (h.resetn (by omega))
      (h.nSamples b (by omega) (Nat.le_of_succ_le hb))
    rwa [hnew, Bool.toNat_false, Nat.add_zero, ← step_tlast] at hstep

theorem counts_opened (h : Acquires ext2sc s inp m ctl k n g) :
    Counts ctl.nSamples 0 (run ext2sc s inp g).stream.tlast := by
  obtain ⟨t, rfl⟩ : ∃ t, g = t + 1 := Nat.exists_eq_add_of_le' (by have := h.after; omega)
  have hle : t ≤ strobe (k + n + 1) := by
    obtain ⟨u, -, hu, hgu, -⟩ := h.ready k le_rfl (Nat.le_add_right k n)
    have hmono := strobe_mono (show k + 1 ≤ k + n + 1 by omega)
    omega
  have hcfg : (tlastIn ext2sc s inp t).cfgData = ctl.nSamples := h.nSamples t le_rfl hle
  exact ⟨h.fresh.trans (Nat.zero_mod _).symm,
    (AxisTlast.intDataReg_step (h.resetn (Nat.le_of_lt_succ h.after))).trans hcfg⟩

theorem free_strobe (h : Acquires ext2sc s inp m ctl k n g)
    (htimes : ∀ l, l < n + 1 → Taken inp (k + l) (times l)) {l : ℕ} (hl : l ≤ n + 1) :
    (tlastIn ext2sc s inp (strobe (k + l))).transferred = false :=
  (during_strobes id h.reset h.free fun l' hl' => htimes l' (hl'.trans_le hl)).1

/-- The beat of a strobe finds as many counted as there were strobes before. -/
theorem counts_taken (h : Acquires ext2sc s inp m ctl k n g) (hn : 1 ≤ ctl.nSamples.toNat)
    (htimes : ∀ l, l < n + 1 → Taken inp (k + l) (times l)) {l : ℕ} (hl : l < n + 1) :
    Counts ctl.nSamples l (run ext2sc s inp (times l)).stream.tlast := by
  have hend : ∀ l, l < n + 1 → times l ≤ strobe (k + n + 1) := fun l hl =>
    (htimes l hl).before.le.trans (strobe_mono (by omega))
  -- Between a strobe and the next only one cycle transfers.
  have hother : ∀ l, l < n + 1 → ∀ t, strobe (k + l) < t → t ≤ strobe (k + l + 1) → t ≠ times l →
      (tlastIn ext2sc s inp t).transferred = false := by
    intro l hl t hlt ht hne
    rw [← Bool.not_eq_true,
      transferred_iff_taken h.reset (h.free_strobe htimes hl.le) (htimes l hl) hlt ht]
    exact hne
  induction l with
  | zero =>
    refine h.counts_of_quiet hn le_rfl (h.le_taken (htimes 0 hl)) (hend 0 hl) ?_ h.counts_opened
    intro t hgt ht
    exact hother 0 hl t (h.after.trans_le hgt) (ht.le.trans (htimes 0 hl).before.le) ht.ne
  | succ l ih =>
    have hprev : l < n + 1 := Nat.lt_of_succ_lt hl
    have ht := htimes l hprev
    have ht' := htimes (l + 1) hl
    have hg := h.le_taken ht
    have hnew : (tlastIn ext2sc s inp (times l)).newSample = true := by
      rw [← AxisTlast.In.transferred_eq]
      exact (transferred_iff_taken h.reset (h.free_strobe htimes hprev.le) ht ht.after
        ht.before.le).mpr rfl
    have hstep := (ih hprev).step hn (h.resetn (h.after.le.trans hg))
      (h.nSamples (times l) (Nat.le_succ_of_le hg) (hend l hprev))
    rw [hnew, ← step_tlast] at hstep
    have hbetween : times l + 1 ≤ times (l + 1) := ht.before.trans ht'.after
    refine h.counts_of_quiet hn (Nat.le_succ_of_le hg) hbetween (hend (l + 1) hl) ?_ hstep
    intro t hlt htt
    rcases Nat.lt_or_ge (strobe (k + l + 1)) t with hlate | hsoon
    · exact hother (l + 1) hl t hlate (htt.le.trans ht'.before.le) htt.ne
    · exact hother l hprev t (ht.after.trans hlt) hsoon (Nat.ne_of_gt hlt)

/-- The beats begin with one for each strobe from `k` on. -/
theorem packets_getElem? (h : Acquires ext2sc s inp m ctl k n g)
    (htimes : ∀ l, l < n + 1 → Taken inp (k + l) (times l)) {T : ℕ} (hT : strobe (k + n + 1) < T)
    {l : ℕ} (hl : l < n + 1) :
    (packets ext2sc s inp g T)[l]? = some ((tlastIn ext2sc s inp (times l)).mTdata,
      AxisTlast.mTlast (run ext2sc s inp (times l)).stream.tlast) := by
  have hzero := htimes 0 (Nat.succ_pos n)
  have hend : g ≤ strobe (k + (n + 1)) + 1 := by
    have hmono := strobe_mono (show k + 1 ≤ k + (n + 1) by omega)
    exact (h.le_taken hzero).trans (hzero.before.le.trans (Nat.le_succ_of_le hmono))
  have hclosed : ∀ t, strobe k + 1 ≤ t → t < g → (tlastIn ext2sc s inp t).transferred = false := by
    intro t hlt ht
    rw [transferred_eq, AxisVariable.accepted, mTready_sourceIn, takes,
      h.closed t (Nat.le_of_lt hlt) ht, Bool.false_and, Bool.and_false]
  have hstrobes := (during_strobes (fun t => ((tlastIn ext2sc s inp t).mTdata,
    AxisTlast.mTlast (run ext2sc s inp t).stream.tlast)) h.reset h.free htimes).2
  rw [Clocked.during_append h.after hend, Clocked.during_eq_nil hclosed,
    List.nil_append] at hstrobes
  rw [packets, Clocked.during_append hend hT, hstrobes,
    List.getElem?_append_left (by rwa [List.length_map, List.length_range]), List.getElem?_map,
    List.getElem?_range hl, Option.map_some]

/-- The first `n + 1` beats are in `ram`, where the packet is longer and the
length of the channel reaches so far. -/
theorem holds (h : Acquires ext2sc s inp m ctl k n g) (hext : ∀ v, ext2sc v = v.signExtend 32)
    (henable : Channel.gen0.enable ctl = true) (hn : n + 1 < ctl.nSamples.toNat) {length T : ℕ}
    (hlen : 32 * (n + 1) ≤ length) (hT : strobe (k + n + 1) < T) {mem : Bank → ℕ → BitVec 32}
    (hmem : Filled (received length (packets ext2sc s inp g T)) mem) :
    MicPacking.Holds (fun i => heard inp m (k + i)) n mem := by
  have htaken : ∀ l, ∃ t, l < n + 1 → Taken inp (k + l) t := by
    intro l
    by_cases hl : l < n + 1
    · obtain ⟨t, ht⟩ := h.taken henable hl
      exact ⟨t, fun _ => ht⟩
    · exact ⟨0, fun hlt => absurd hlt hl⟩
  choose times htimes using htaken
  have hlast : ∀ i, i < n + 1 → ∀ p, (packets ext2sc s inp g T)[i]? = some p → p.2 = false := by
    intro i hi p hp
    rw [h.packets_getElem? htimes hT hi, Option.some.injEq] at hp
    rw [← hp, ← Bool.not_eq_true, (h.counts_taken (by omega) htimes hi).mTlast_iff (by omega)]
    exact Nat.not_dvd_of_pos_of_lt (Nat.succ_pos i) (by omega)
  intro i hi j
  have hi : i < n + 1 := Nat.lt_succ_of_le hi
  have ht := htimes i hi
  have hbeat : (received length (packets ext2sc s inp g T))[i]? =
      some (tlastIn ext2sc s inp (times i)).mTdata := by
    rw [received_getElem? (fun l hl => hlast l (hl.trans hi)) (by omega),
      h.packets_getElem? htimes hT hi, Option.map_some]
  have hsel : (inp (times i - 4)).logic.micSelect = m := by
    have hafter := (strobe_mono (Nat.le_add_right k i)).trans_lt ht.after
    have hbefore := ht.before.trans_le (strobe_mono (show k + i + 1 ≤ k + n + 1 by omega))
    exact h.select _ (by omega) (by omega)
  rw [hmem i _ hbeat j (by omega), lane_mTdata h.reset ht hsel, ← hext]
  rfl

end Acquires

/-- `get_mics4` returns what the microphones had for the strobes after the gate
was opened, in their order. -/
theorem getMics4_returns (hext : ∀ v, ext2sc v = v.signExtend 32) {samples : BitVec 32}
    (hlt : samples.toNat < 2 ^ 19) (st : Readers.State)
    (hcovers : Covers (startDmaTransfer samples st.dma))
    (h : Acquires ext2sc s inp m (startDmaTransfer samples st.dma).ctl k samples.toNat g) {T : ℕ}
    (hT : strobe (k + samples.toNat + 1) < T) {mem : Bank → ℕ → BitVec 32}
    (hmem : Filled (received (keptLength .dma (startDmaTransfer samples st.dma).bus.stores).toNat
      (packets ext2sc s inp g T)) mem) :
    (getMics4 mem samples st).1 = some ((List.range samples.toNat).flatMap fun i =>
      samplesOf (heard inp m (k + (i + 1)))) := by
  have hnSamples : (startDmaTransfer samples st.dma).ctl.nSamples.toNat = samples.toNat + 5 := by
    rw [DmaTransfer.startDmaTransfer_nSamples, BitVec.toNat_add]
    exact Nat.mod_eq_of_lt (by unfold Sesenta.readOffset; simp; omega)
  have henable : Channel.gen0.enable (startDmaTransfer samples st.dma).ctl = true := by
    show (Sesenta.setBit _ 0).getLsbD 0 = true
    simp [Sesenta.setBit]
  have hlen := hcovers .dma
  rw [DmaTransfer.packetBytes, hnSamples] at hlen
  exact MicPacking.getMics4_result hlt
    (h.holds hext henable (by omega) (by omega) hT hmem) st

end Run

/-! ## Eleven samples -/

/-- Until the gate opens, nothing is counted. -/
theorem cnt_opened {t : ℕ} (ht : t ≤ strobe 0 + 1) :
    (run (BitVec.signExtend 32) cleared opened t).stream.tlast.cnt = 0 := by
  induction t with
  | zero => rfl
  | succ t ih =>
    have hclosed : (tlastIn (BitVec.signExtend 32) cleared opened t).newSample = false := by
      have hgate : (tlastIn (BitVec.signExtend 32) cleared opened t).enable = false :=
        decide_eq_false (Nat.not_lt_of_le (Nat.le_of_succ_le_succ ht))
      rw [AxisTlast.In.newSample_eq, hgate, Bool.false_and, Bool.false_and]
    rw [step_tlast]
    cases hreset : (tlastIn (BitVec.signExtend 32) cleared opened t).resetn with
    | false =>
      rw [AxisTlast.step_of_reset hreset]
      rfl
    | true => rw [AxisTlast.cnt_step_of_quiet hreset hclosed, ih (Nat.le_of_succ_le ht)]

theorem opened_acquires : Acquires (BitVec.signExtend 32) cleared opened 0#32
    (startDmaTransfer 11#32 MicPacking.reset.dma).ctl 0 11 (strobe 0 + 1) where
  reset := (opened_served 0).reset
  select _ _ _ := rfl
  after := Nat.lt_succ_self _
  closed t _ ht := decide_eq_false (Nat.not_lt_of_le (Nat.le_of_lt_succ ht))
  opened t ht _ := by
    have hopen : strobe 0 < t := ht
    show decide (strobe 0 < t) = _
    rw [decide_eq_true hopen]
    rfl
  nSamples _ _ _ := rfl
  fresh := by
    rw [cnt_opened le_rfl]
    rfl
  ready l _ _ := by
    have hmono := strobe_mono (Nat.zero_le l)
    exact ⟨strobe l + 1, Nat.lt_succ_self _, by unfold strobe; omega, Nat.succ_le_succ hmono, rfl⟩

/-- What the channel has stored. -/
def openedBeats : List (BitVec 256) :=
  received (keptLength .dma (startDmaTransfer 11#32 MicPacking.reset.dma).bus.stores).toNat
    (packets (BitVec.signExtend 32) cleared opened (strobe 0 + 1) (strobe 12 + 1))

theorem memoryOf_filled (beats : List (BitVec 256)) :
    Filled beats (MicPacking.memoryOf fun i => beats.getD i 0) := by
  intro i beat hbeat m hm
  rw [MicPacking.memoryOf, Nat.add_mul_div_right _ _ (by decide), Nat.div_eq_of_lt hm, Nat.zero_add,
    Nat.add_mul_mod_self_right, Nat.mod_eq_of_lt hm, List.getD_eq_getElem?_getD, hbeat]
  rfl

theorem opened_returns :
    (getMics4 (MicPacking.memoryOf fun i => openedBeats.getD i 0) 11#32 MicPacking.reset).1 =
      some ((List.range (11#32).toNat).flatMap fun i =>
        samplesOf (heard opened 0#32 (0 + (i + 1)))) :=
  getMics4_returns (fun _ => rfl) (by decide) MicPacking.reset
    (DmaTransfer.covers_of_lt (by decide)) opened_acquires (Nat.lt_succ_self _)
    (memoryOf_filled openedBeats)

end DmaRead
