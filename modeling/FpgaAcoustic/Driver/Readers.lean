-- SUMMARY: The commands that read the DMA buffers, and the requests for which they stay in the mapping and in the range of an int.
import FpgaAcoustic.Driver.DmaTransfer
import FpgaAcoustic.Bytes.Safety

/-!
# Readers of the DMA buffers

Five commands read the words that the channels have written to `ram` and `ram2`.
The number of beats and the index of a microphone come from the client, and the
check of the word index is commented out. An expression of type `int` that
overflows has no value.
-/

namespace Readers

open Bytes Parser Sesenta DmaTransfer

/-! ## The buffers -/

/-- `ram` and `ram2`. -/
inductive Bank
  | ram
  | ram2
  deriving DecidableEq, Repr

structure Read where
  bank : Bank
  index : ℕ
  deriving DecidableEq, Repr

/-- The registers of the driver, and the words it has read. -/
structure State where
  dma : DmaTransfer.State
  reads : List Read

/-- `ram_range / 4`. `ram2` has the same range. -/
def ramWords : ℕ := 16 * 1024 * 1024 / 4

/-- The values of an `int`. -/
def InInt (v : ℤ) : Prop := -2 ^ 31 ≤ v ∧ v < 2 ^ 31

instance (v : ℤ) : Decidable (InInt v) := inferInstanceAs (Decidable (_ ∧ _))

/-- The value of an expression of type `int`. -/
def int (v : ℤ) : Parser State ℤ := lift (if InInt v then some v else none)

/-- `read_array_value_at_index<uint32_t, 1>`. -/
def readArrayValueAtIndex (mem : Bank → ℕ → BitVec 32) (bank : Bank) (index : BitVec 32) :
    Parser State (BitVec 32) := fun s =>
  (some (mem bank index.toNat), { s with reads := s.reads ++ [⟨bank, index.toNat⟩] })

def splitMicValue (micValue : BitVec 32) : BitVec 16 × BitVec 16 :=
  ((micValue &&& 0xFFFF#32).setWidth 16, ((micValue >>> 16) &&& 0xFFFF#32).setWidth 16)

/-- The two entries that a word is split into. -/
def halves (mic : BitVec 32) : List ℤ :=
  let (mic1, mic2) := splitMicValue mic
  [mic1.toInt, mic2.toInt]

/-- The entry that a whole word is. -/
def whole (mic : BitVec 32) : List ℤ := [mic.toInt]

/-! ## The loops -/

/-- `for (int i = 1; i < (int)samples + 1; i++)`. Below the bound `i++` does not
overflow. -/
def forSamples (samples : BitVec 32) (body : ℤ → Parser State (List ℤ)) : Parser State (List ℤ) :=
  (int (samples.toInt + 1)).bind fun bound =>
    seq ((List.range (bound - 1).toNat).map fun k : ℕ => body (k + 1))

section Commands

variable (mem : Bank → ℕ → BitVec 32)

/-- The loop over the first words of each beat in a bank. -/
def readBeats (bank : Bank) (numMics : ℤ) (totalMics : ℕ) (decode : BitVec 32 → List ℤ)
    (samples : BitVec 32) : Parser State (List ℤ) :=
  forSamples samples fun i =>
    (int (i * numMics)).bind fun offset =>
      seq ((List.range totalMics).map fun micIdx : ℕ =>
        (int (micIdx + offset)).bind fun index =>
          (readArrayValueAtIndex mem bank (BitVec.ofInt 32 index)).map decode)

/-- `start_dma_transfer`, and both gates closed. -/
def capture (samples : BitVec 32) : Parser State Unit := fun s =>
  let dma := startDmaTransfer samples s.dma
  (some (), { s with dma := { dma with ctl := (dma.ctl.write .dmaOff).write .dma1Off } })

def readMics6 (samples : BitVec 32) : Parser State (List ℤ) :=
  seq [readBeats mem .ram 8 2 halves samples, readBeats mem .ram2 8 2 halves samples]

def getMics6 (samples : BitVec 32) : Parser State (List ℤ) :=
  (capture samples).bind fun _ =>
    seq [readBeats mem .ram 8 2 halves samples, readBeats mem .ram2 8 2 halves samples]

def getMics4 (samples : BitVec 32) : Parser State (List ℤ) :=
  (capture samples).bind fun _ => readBeats mem .ram 8 4 whole samples

def getMics (samples : BitVec 32) : Parser State (List ℤ) :=
  (capture samples).bind fun _ =>
    seq [readBeats mem .ram 16 16 halves samples, readBeats mem .ram2 16 16 halves samples]

/-- The sum of `mic_idx` and the offset is unsigned. -/
def getMicsIth (samples micIdx : BitVec 32) : Parser State (List ℤ) :=
  (capture samples).bind fun _ =>
    forSamples samples fun i =>
      (int (i * 8)).bind fun offset =>
        seq [(readArrayValueAtIndex mem .ram (micIdx + BitVec.ofInt 32 offset)).map halves,
          (readArrayValueAtIndex mem .ram2 (micIdx + BitVec.ofInt 32 offset)).map halves]

/-- The requests of a client. -/
inductive Request
  | readMics6 (samples : BitVec 32)
  | getMics6 (samples : BitVec 32)
  | getMics4 (samples : BitVec 32)
  | getMics (samples : BitVec 32)
  | getMicsIth (samples micIdx : BitVec 32)
  deriving DecidableEq, Repr

def Request.run : Request → Parser State (List ℤ)
  | .readMics6 samples => Readers.readMics6 mem samples
  | .getMics6 samples => Readers.getMics6 mem samples
  | .getMics4 samples => Readers.getMics4 mem samples
  | .getMics samples => Readers.getMics mem samples
  | .getMicsIth samples micIdx => Readers.getMicsIth mem samples micIdx

end Commands

/-! ## Specification -/

/-- Every word that was read lies in its mapping. -/
def Mapped (s : State) : Prop := ∀ r ∈ s.reads, r.index < ramWords

/-- No `int` overflows in the run of a command, and it reads mapped words only. -/
def InMapping (p : Parser State (List ℤ)) (dma : DmaTransfer.State) : Prop :=
  (p ⟨dma, []⟩).1 ≠ none ∧ Mapped (p ⟨dma, []⟩).2

/-- A loop has no passes, or the last of them stays below the end of the buffer. -/
def Request.Fits : Request → Prop
  | .readMics6 samples | .getMics6 samples | .getMics4 samples =>
    samples.toInt ≤ 0 ∨ samples.toNat < 2 ^ 19
  | .getMics samples => samples.toInt ≤ 0 ∨ samples.toNat < 2 ^ 18
  | .getMicsIth samples micIdx =>
    samples.toInt ≤ 0 ∨ (micIdx + 8#32).toNat + 8 * (samples.toNat - 1) < 2 ^ 22

/-! ## Steps -/

section Steps

variable {mem : Bank → ℕ → BitVec 32} {α : Type}

/-- An expression either has its value or overflows. -/
theorem int_bind_safeIff {v : ℤ} {f : ℤ → Parser State α} {P : Prop}
    (h : SafeIff Mapped (f v) P) : SafeIff Mapped ((int v).bind f) (InInt v ∧ P) := by
  by_cases hv : InInt v
  · rw [int, if_pos hv, lift_some_bind]
    exact h.congr (by simp [hv])
  · rw [int, if_neg hv, lift_none_bind]
    exact SafeIff.lift_none.congr (by simp [hv])

/-- A word that was read is not forgotten. -/
theorem read_safeIff (bank : Bank) (index : BitVec 32) :
    SafeIff Mapped (readArrayValueAtIndex mem bank index) (index.toNat < ramWords) where
  stays _ h r hr := h r (List.mem_append_left _ hr)
  safe hlt s hs := by
    refine ⟨Option.some_ne_none _, fun r hr => ?_⟩
    rcases List.mem_append.mp hr with hr | hr
    · exact hs r hr
    · rw [List.mem_singleton.mp hr]
      exact hlt
  faults hlt _ := .inr fun hmapped =>
    hlt (hmapped _ (List.mem_append_right _ List.mem_cons_self))

theorem forSamples_safeIff {samples : BitVec 32} {body : ℤ → Parser State (List ℤ)}
    {P : ℕ → Prop} (h : ∀ k : ℕ, SafeIff Mapped (body (k + 1)) (P k)) :
    SafeIff Mapped (forSamples samples body)
      (InInt (samples.toInt + 1) ∧ ∀ k < samples.toInt.toNat, P k) := by
  have hpasses : SafeIff Mapped
      (seq ((List.range (samples.toInt + 1 - 1).toNat).map fun k : ℕ => body (k + 1)))
      (∀ k ∈ List.range (samples.toInt + 1 - 1).toNat, P k) := SafeIff.seq fun k _ => h k
  exact int_bind_safeIff (hpasses.congr (by simp))

theorem inMapping_iff_of_safeIff {p : Parser State (List ℤ)} {P : Prop} (h : SafeIff Mapped p P)
    (dma : DmaTransfer.State) : InMapping p dma ↔ P := by
  have hnil : Mapped ⟨dma, []⟩ := fun _ hr => absurd hr List.not_mem_nil
  refine ⟨fun ⟨hsome, hmapped⟩ => ?_, fun hp => h.safe hp _ hnil⟩
  by_contra hp
  rcases h.faults hp ⟨dma, []⟩ with hnone | hbad
  · exact hsome hnone
  · exact hbad hmapped

/-- The transfer writes to registers only. -/
theorem capture_inMapping_iff {f : Unit → Parser State (List ℤ)} {P : Prop}
    (h : SafeIff Mapped (f ()) P) (samples : BitVec 32) (dma : DmaTransfer.State) :
    InMapping ((capture samples).bind f) dma ↔ P :=
  inMapping_iff_of_safeIff h _

end Steps

/-! ## Loops -/

section Loops

variable {mem : Bank → ℕ → BitVec 32} {samples : BitVec 32}

/-- A count is taken as it is, unless it is negative as an `int`. -/
theorem toInt_cases (samples : BitVec 32) :
    samples.toInt ≤ 0 ∨ samples.toInt = samples.toNat ∧ 0 < samples.toNat := by
  rw [BitVec.toInt_eq_toNat_cond]
  split
  · omega
  · have hlt := samples.isLt
    omega

theorem toNat_ofInt {v : ℕ} (h : v < 2 ^ 31) : (BitVec.ofInt 32 v).toNat = v := by
  rw [BitVec.ofInt_natCast, BitVec.toNat_ofNat, Nat.mod_eq_of_lt (by omega)]

theorem inInt_natCast {v : ℕ} : InInt v ↔ v < 2 ^ 31 := by
  unfold InInt
  omega

/-- Where a condition on the passes holds for all before those it holds for, it
is decided by the last pass. -/
theorem forall_passes_iff {P : ℕ → Prop} (hdown : ∀ k, P (k + 1) → P k)
    (hbound : ∀ k, P k → k + 2 < 2 ^ 31) :
    (InInt (samples.toInt + 1) ∧ ∀ k < samples.toInt.toNat, P k) ↔
      samples.toInt ≤ 0 ∨ P (samples.toNat - 1) := by
  have hantitone : ∀ k n, P (k + n) → P k := by
    intro k n h
    induction n with
    | zero => exact h
    | succ n ih => exact ih (hdown _ h)
  have hge := BitVec.le_toInt samples
  rcases toInt_cases samples with hnone | ⟨htoInt, hpos⟩
  · refine iff_of_true ⟨⟨by omega, by omega⟩, fun k hk => ?_⟩ (.inl hnone)
    omega
  · rw [htoInt, Int.toNat_natCast]
    constructor
    · rintro ⟨-, hall⟩
      exact .inr (hall _ (Nat.sub_one_lt_of_lt hpos))
    · intro hlast
      have hlast : P (samples.toNat - 1) := hlast.resolve_left (by omega)
      have hlt := hbound _ hlast
      refine ⟨⟨by omega, by omega⟩, fun k hk => hantitone k (samples.toNat - 1 - k) ?_⟩
      rwa [Nat.add_sub_cancel' (Nat.le_sub_one_of_lt hk)]

/-- The words of a pass end before those of the next, so a loop leaves the
buffer with its last pass. -/
theorem readBeats_safeIff (bank : Bank) {numMics totalMics : ℕ} (decode : BitVec 32 → List ℤ)
    (beats : ℕ) (hbuffer : beats * numMics = ramWords) (htotal : 0 < totalMics)
    (hle : totalMics ≤ numMics) :
    SafeIff Mapped (readBeats mem bank numMics totalMics decode samples)
      (samples.toInt ≤ 0 ∨ samples.toNat < beats) := by
  have hram : ramWords < 2 ^ 31 := by decide
  have hpass : ∀ k : ℕ, SafeIff Mapped
      ((int (((k : ℤ) + 1) * numMics)).bind fun offset =>
        seq ((List.range totalMics).map fun micIdx : ℕ =>
          (int (micIdx + offset)).bind fun index =>
            (readArrayValueAtIndex mem bank (BitVec.ofInt 32 index)).map decode))
      (k + 1 < beats) := by
    intro k
    refine (int_bind_safeIff (SafeIff.seq fun micIdx _ =>
      int_bind_safeIff ((read_safeIff bank _).map decode))).congr ?_
    have hoffset : ((k : ℤ) + 1) * numMics = (((k + 1) * numMics : ℕ) : ℤ) := by push_cast; ring
    simp only [hoffset, ← Nat.cast_add, inInt_natCast, List.mem_range]
    constructor
    · rintro ⟨-, hreads⟩
      obtain ⟨hint, hmapped⟩ := hreads 0 htotal
      rw [toNat_ofInt hint, Nat.zero_add, ← hbuffer] at hmapped
      exact Nat.lt_of_mul_lt_mul_right hmapped
    · intro hlt
      have hend : (k + 1) * numMics + numMics ≤ ramWords := by
        rw [← hbuffer, ← Nat.succ_mul]
        exact Nat.mul_le_mul_right _ hlt
      refine ⟨by omega, fun micIdx hmic => ⟨by omega, ?_⟩⟩
      rw [toNat_ofInt (by omega)]
      omega
  have hbeats : beats ≤ ramWords := hbuffer ▸ Nat.le_mul_of_pos_right _ (htotal.trans_le hle)
  refine (forSamples_safeIff hpass).congr ?_
  rw [forall_passes_iff (fun k => Nat.lt_of_succ_lt) (fun k hk => by omega)]
  rcases toInt_cases samples with hnone | ⟨-, hpos⟩
  · exact iff_of_true (.inl hnone) (.inl hnone)
  · rw [Nat.sub_add_cancel hpos]

/-- Two loops of the same number of passes. -/
theorem readBanks_safeIff {numMics totalMics : ℕ} (decode : BitVec 32 → List ℤ) (beats : ℕ)
    (hbuffer : beats * numMics = ramWords) (htotal : 0 < totalMics) (hle : totalMics ≤ numMics) :
    SafeIff Mapped
      (seq [readBeats mem .ram numMics totalMics decode samples,
        readBeats mem .ram2 numMics totalMics decode samples])
      (samples.toInt ≤ 0 ∨ samples.toNat < beats) := by
  have hbanks : SafeIff Mapped
      (seq ([Bank.ram, Bank.ram2].map fun bank =>
        readBeats mem bank numMics totalMics decode samples)) _ :=
    SafeIff.seq fun bank _ => readBeats_safeIff bank decode beats hbuffer htotal hle
  exact hbanks.congr (by simp)

/-- The indices go up by `8` from the one of the first pass. -/
theorem toNat_index (micIdx : BitVec 32) (k : ℕ) :
    (micIdx + BitVec.ofInt 32 (((k : ℤ) + 1) * 8)).toNat =
      ((micIdx + 8#32).toNat + 8 * k) % 2 ^ 32 := by
  have hoffset : ((k : ℤ) + 1) * 8 = (((k + 1) * 8 : ℕ) : ℤ) := by push_cast; ring
  rw [hoffset, BitVec.ofInt_natCast, BitVec.toNat_add, BitVec.toNat_add, BitVec.toNat_ofNat,
    BitVec.toNat_ofNat]
  omega

/-- Before they wrap there is one past the buffer. -/
theorem lt_of_forall_mod_lt {first k : ℕ} (hfirst : first < 2 ^ 32)
    (h : ∀ j ≤ k, (first + 8 * j) % 2 ^ 32 < 2 ^ 22) : first + 8 * k < 2 ^ 22 := by
  induction k with
  | zero =>
    have hmapped := h 0 le_rfl
    omega
  | succ k ih =>
    have hbefore := ih fun j hj => h j (Nat.le_succ_of_le hj)
    have hmapped := h (k + 1) le_rfl
    omega

theorem readIth_safeIff {micIdx : BitVec 32} :
    SafeIff Mapped
      (forSamples samples fun i =>
        (int (i * 8)).bind fun offset =>
          seq [(readArrayValueAtIndex mem .ram (micIdx + BitVec.ofInt 32 offset)).map halves,
            (readArrayValueAtIndex mem .ram2 (micIdx + BitVec.ofInt 32 offset)).map halves])
      (samples.toInt ≤ 0 ∨ (micIdx + 8#32).toNat + 8 * (samples.toNat - 1) < 2 ^ 22) := by
  have hpass : ∀ k : ℕ, SafeIff Mapped
      ((int (((k : ℤ) + 1) * 8)).bind fun offset =>
        seq [(readArrayValueAtIndex mem .ram (micIdx + BitVec.ofInt 32 offset)).map halves,
          (readArrayValueAtIndex mem .ram2 (micIdx + BitVec.ofInt 32 offset)).map halves])
      (InInt (((k : ℤ) + 1) * 8) ∧
        (micIdx + BitVec.ofInt 32 (((k : ℤ) + 1) * 8)).toNat < ramWords) := by
    intro k
    refine int_bind_safeIff ?_
    have hreads : SafeIff Mapped
        (seq ([Bank.ram, Bank.ram2].map fun bank =>
          (readArrayValueAtIndex mem bank
            (micIdx + BitVec.ofInt 32 (((k : ℤ) + 1) * 8))).map halves)) _ :=
      SafeIff.seq fun bank _ => (read_safeIff bank _).map halves
    exact hreads.congr (by simp)
  have hram : ramWords = 2 ^ 22 := rfl
  have hfirst := (micIdx + 8#32).isLt
  refine (forSamples_safeIff hpass).congr ?_
  rw [← forall_passes_iff (P := fun k => (micIdx + 8#32).toNat + 8 * k < 2 ^ 22)
    (fun k hk => by omega) (fun k hk => by omega)]
  refine and_congr_right fun _ => ?_
  simp only [toNat_index, hram]
  constructor
  · intro hpasses k hk
    exact lt_of_forall_mod_lt hfirst fun j hj => (hpasses j (hj.trans_lt hk)).2
  · intro hpasses k hk
    have hbelow := hpasses k hk
    exact ⟨⟨by omega, by omega⟩, by omega⟩

end Loops

/-! ## Requests -/

/-- A request stays in the mapping just when it fits. -/
theorem inMapping_iff (mem : Bank → ℕ → BitVec 32) (r : Request) (dma : DmaTransfer.State) :
    InMapping (r.run mem) dma ↔ r.Fits := by
  cases r with
  | readMics6 samples =>
    exact inMapping_iff_of_safeIff
      (readBanks_safeIff halves (2 ^ 19) rfl (by decide) (by decide)) dma
  | getMics6 samples =>
    exact capture_inMapping_iff
      (readBanks_safeIff halves (2 ^ 19) rfl (by decide) (by decide)) samples dma
  | getMics4 samples =>
    exact capture_inMapping_iff
      (readBeats_safeIff .ram whole (2 ^ 19) rfl (by decide) (by decide)) samples dma
  | getMics samples =>
    exact capture_inMapping_iff
      (readBanks_safeIff halves (2 ^ 18) rfl (by decide) (by decide)) samples dma
  | getMicsIth samples micIdx => exact capture_inMapping_iff readIth_safeIff samples dma

/-- With `2 ^ 19` beats the last one is read past the end of `ram`. -/
theorem past_end_not_inMapping :
    ¬ InMapping ((Request.getMics4 524288).run fun _ _ => 0#32) DmaTransfer.idle := by
  have hfits : InMapping (getMics4 (fun _ _ => 0#32) 524288#32) DmaTransfer.idle ↔
      (524288#32).toInt ≤ 0 ∨ (524288#32).toNat < 2 ^ 19 :=
    capture_inMapping_iff (readBeats_safeIff .ram whole (2 ^ 19) rfl (by decide) (by decide)) _ _
  exact fun h => absurd (hfits.mp h) (by decide)

end Readers
