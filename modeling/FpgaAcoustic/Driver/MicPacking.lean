-- SUMMARY: The beats of reg_mics_data as they lie in ram, and the beats that get_mics6 decodes to the samples that get_mics4 returns.
import FpgaAcoustic.Driver.Readers
import FpgaAcoustic.Rtl.Capture

/-!
# Packed microphones

A beat has a word for each of the four microphones, with the sample extended to
the width of the word. One reader returns the words. The other returns the
halves of the first two words.
-/

namespace MicPacking

open Bytes Parser Readers

/-! ## The packer -/

/-- The next value of `reg_mics_data`. Its upper lanes are those of `mics_data`. -/
def regMicsData (ext2sc : BitVec 16 → BitVec 32) (delayedPcmData : Fin 4 → BitVec 16)
    (micsData : BitVec 256) : BitVec 256 :=
  micsData.extractLsb' 128 128 ++ ext2sc (delayedPcmData 3) ++ ext2sc (delayedPcmData 2) ++
    ext2sc (delayedPcmData 1) ++ ext2sc (delayedPcmData 0)

/-- Lane `m` of a beat. -/
def lane (beat : BitVec 256) (m : ℕ) : BitVec 32 := beat.extractLsb' (m * 32) 32

/-- The lane of a microphone is its sample, extended. -/
theorem lane_regMicsData (ext2sc : BitVec 16 → BitVec 32) (delayedPcmData : Fin 4 → BitVec 16)
    (micsData : BitVec 256) (m : Fin 4) :
    lane (regMicsData ext2sc delayedPcmData micsData) m = ext2sc (delayedPcmData m) := by
  unfold lane regMicsData
  match m with
  | 0 => exact BitVec.extractLsb'_append_eq_right
  | 1 =>
    rw [BitVec.extractLsb'_append_eq_of_le (by decide)]
    exact BitVec.extractLsb'_append_eq_right
  | 2 =>
    rw [BitVec.extractLsb'_append_eq_of_le (by decide),
      BitVec.extractLsb'_append_eq_of_le (by decide)]
    exact BitVec.extractLsb'_append_eq_right
  | 3 =>
    rw [BitVec.extractLsb'_append_eq_of_le (by decide),
      BitVec.extractLsb'_append_eq_of_le (by decide),
      BitVec.extractLsb'_append_eq_of_le (by decide)]
    exact BitVec.extractLsb'_append_eq_right

/-- The words that go to the BRAMs are these lanes. -/
theorem lane_step (ext2sc : BitVec 16 → BitVec 32) (s : Capture.Regs) (i : Capture.In)
    (micsData : BitVec 256) (m : Fin 4) :
    lane (regMicsData ext2sc s.delay.delayedPcmData micsData) m =
      (Capture.step ext2sc s i).regMicsData m := lane_regMicsData ext2sc _ micsData m

/-- The beats lie in `ram`, one after the other, each with its low word first. -/
def Stored (beats : ℕ → BitVec 256) (mem : Bank → ℕ → BitVec 32) : Prop :=
  ∀ i m, m < 8 → 8 * i + m < ramWords → mem .ram (8 * i + m) = lane (beats i) m

/-! ## Specification -/

/-- What `get_mics4` returns are the samples of the beats from `1` to `n`, and
what `get_mics6` returns begins with them. -/
def Agree (x : ℕ → Fin 4 → BitVec 16) (n : ℕ) (mics4 mics6 : Option (List ℤ)) : Prop :=
  ∃ v, mics4 = some v ∧ v.length = 4 * n ∧
    (∀ i, 1 ≤ i → i ≤ n → ∀ m : Fin 4, v[4 * (i - 1) + m]? = some (x i m).toInt) ∧
    mics6.map (·.take (4 * n)) = some v

/-- The upper half of an extended sample. -/
def signHalf (sample : BitVec 16) : BitVec 16 := if sample.msb then BitVec.allOnes 16 else 0#16

/-- The beats in which the words of microphones `2` and `3` can be taken for
those of `0` and `1`, and the upper halves for samples. -/
def Even (sample : Fin 4 → BitVec 16) : Prop := ∀ m : Fin 4, m ≠ 0 → sample m = signHalf (sample 0)

/-! ## Blocks -/

section Blocks

variable {α : Type} {f g : ℕ → List α} {b : ℕ}

theorem length_blocks (hf : ∀ k, (f k).length = b) (n : ℕ) :
    ((List.range n).flatMap f).length = b * n := by
  induction n with
  | zero => rfl
  | succ n ih => rw [List.range_succ, List.flatMap_append, List.length_append, ih,
      List.flatMap_singleton, hf, Nat.mul_succ]

/-- An entry of a block. -/
theorem getElem?_blocks (hf : ∀ k, (f k).length = b) {n k m : ℕ} (hk : k < n) (hm : m < b) :
    ((List.range n).flatMap f)[b * k + m]? = (f k)[m]? := by
  induction n with
  | zero => exact absurd hk (Nat.not_lt_zero k)
  | succ n ih =>
    have hlen := length_blocks hf n
    rw [List.range_succ, List.flatMap_append, List.flatMap_singleton]
    rcases Nat.lt_succ_iff_lt_or_eq.mp hk with hlt | rfl
    · have hle : b * (k + 1) ≤ b * n := Nat.mul_le_mul_left b hlt
      rw [Nat.mul_succ] at hle
      rw [List.getElem?_append_left (by omega), ih hlt]
    · rw [List.getElem?_append_right (by omega), hlen, Nat.add_sub_cancel_left]

/-- Blocks of one length are determined by what they make together. -/
theorem blocks_inj (hf : ∀ k, (f k).length = b) (hg : ∀ k, (g k).length = b) (n : ℕ) :
    (List.range n).flatMap f = (List.range n).flatMap g ↔ ∀ k < n, f k = g k := by
  constructor
  · intro h k hk
    refine List.ext_getElem? fun m => ?_
    rcases Nat.lt_or_ge m b with hm | hm
    · rw [← getElem?_blocks hf hk hm, ← getElem?_blocks hg hk hm, h]
    · rw [List.getElem?_eq_none (by rwa [hf]), List.getElem?_eq_none (by rwa [hg])]
  · intro h
    exact List.flatMap_congr fun k hk => h k (List.mem_range.mp hk)

end Blocks

/-! ## Halves -/

theorem setWidth_and_mask (micValue : BitVec 32) :
    (micValue &&& 0xFFFF#32).setWidth 16 = micValue.setWidth 16 := by
  rw [BitVec.setWidth_and]
  exact BitVec.and_allOnes

/-- The lower half of an extended sample is the sample, and the upper half is
filled with its sign. -/
theorem splitMicValue_signExtend (sample : BitVec 16) :
    splitMicValue (sample.signExtend 32) = (sample, signHalf sample) := by
  unfold splitMicValue signHalf
  rw [setWidth_and_mask, setWidth_and_mask]
  refine Prod.ext (BitVec.eq_of_getLsbD_eq fun i hi => ?_) (BitVec.eq_of_getLsbD_eq fun i hi => ?_)
  · have hlt : i < 32 := by omega
    simp only [BitVec.getLsbD_setWidth, BitVec.getLsbD_signExtend, hi, hlt, decide_true,
      Bool.true_and, if_true]
  · have hlt : 16 + i < 32 := by omega
    have hge : ¬ 16 + i < 16 := by omega
    simp only [BitVec.getLsbD_setWidth, BitVec.getLsbD_ushiftRight, BitVec.getLsbD_signExtend, hi,
      hlt, hge, decide_true, Bool.true_and, if_false]
    cases sample.msb with
    | false => rw [if_neg Bool.false_ne_true, BitVec.getLsbD_zero]
    | true => rw [if_pos rfl, BitVec.getLsbD_allOnes, decide_eq_true hi]

theorem halves_signExtend (sample : BitVec 16) :
    halves (sample.signExtend 32) = [sample.toInt, (signHalf sample).toInt] := by
  rw [halves, splitMicValue_signExtend]

theorem whole_signExtend (sample : BitVec 16) : whole (sample.signExtend 32) = [sample.toInt] := by
  rw [whole, BitVec.toInt_signExtend_of_le (by decide)]

theorem signHalf_signHalf (sample : BitVec 16) : signHalf (signHalf sample) = signHalf sample := by
  unfold signHalf
  split
  · rfl
  · rfl

/-- Both readers return the same four entries of a beat just when it is even. -/
theorem entries_eq_iff (sample : Fin 4 → BitVec 16) :
    [(sample 0).toInt, (signHalf (sample 0)).toInt, (sample 1).toInt, (signHalf (sample 1)).toInt] =
        [(sample 0).toInt, (sample 1).toInt, (sample 2).toInt, (sample 3).toInt] ↔
      Even sample := by
  simp only [List.cons.injEq, BitVec.toInt_inj, true_and, and_true]
  constructor
  · rintro ⟨hone, htwo, hthree⟩ m hm
    match m with
    | 0 => exact absurd rfl hm
    | 1 => exact hone.symm
    | 2 => exact htwo.symm.trans hone.symm
    | 3 => rw [← hthree, ← hone, signHalf_signHalf]
  · intro h
    have hone := h 1 (by decide)
    refine ⟨hone.symm, hone.trans (h 2 (by decide)).symm, ?_⟩
    rw [hone, signHalf_signHalf, h 3 (by decide)]

/-! ## Values -/

section Values

variable {mem : Bank → ℕ → BitVec 32} {samples : BitVec 32} {α : Type}

/-- `p` returns `a`, whatever the state. -/
def Yields (p : Parser State α) (a : α) : Prop := Decodes (fun _ _ => True) p [] a

theorem Yields.result {p : Parser State α} {a : α} (h : Yields p a) (s : State) :
    (p s).1 = some a := by
  obtain ⟨s', hs', -⟩ := h s [] trivial
  rw [hs']

theorem int_yields {v : ℤ} (h : InInt v) : Yields (int v) v := by
  rw [Yields, int, if_pos h]
  exact Decodes.lift v

theorem read_yields (bank : Bank) (index : BitVec 32) :
    Yields (readArrayValueAtIndex mem bank index) (mem bank index.toNat) :=
  fun _ _ _ => ⟨_, rfl, trivial⟩

theorem seq_yields {γ : Type} {p : γ → Parser State (List α)} {val : γ → List α} {gs : List γ}
    (h : ∀ g ∈ gs, Yields (p g) (val g)) : Yields (seq (gs.map p)) (gs.flatMap val) := by
  have hseq : Decodes (fun _ _ => True) (seq (gs.map p)) (gs.flatMap fun _ => []) _ := seq_decodes h
  rwa [show gs.flatMap (fun _ => ([] : List Byte)) = [] from by simp] at hseq

/-- Below the end of the buffer, a loop returns the entries of its words. -/
theorem readBeats_yields (bank : Bank) {numMics totalMics : ℕ} (decode : BitVec 32 → List ℤ)
    (beats : ℕ) (hbuffer : beats * numMics = ramWords) (hle : totalMics ≤ numMics)
    (hlt : samples.toNat < beats) :
    Yields (readBeats mem bank numMics totalMics decode samples)
      ((List.range samples.toNat).flatMap fun k =>
        (List.range totalMics).flatMap fun micIdx =>
          decode (mem bank (micIdx + (k + 1) * numMics))) := by
  have hram : ramWords < 2 ^ 31 := by decide
  have hbeats : beats ≤ ramWords := by
    rcases Nat.eq_zero_or_pos numMics with hzero | hpos
    · rw [hzero, Nat.mul_zero] at hbuffer
      exact absurd hbuffer (by decide)
    · exact hbuffer ▸ Nat.le_mul_of_pos_right _ hpos
  have htoInt : samples.toInt = samples.toNat := by
    rw [BitVec.toInt_eq_toNat_cond, if_pos (by omega)]
  refine (int_yields ⟨by omega, by omega⟩).bind ?_
  rw [htoInt, Int.add_sub_cancel, Int.toNat_natCast]
  refine seq_yields fun k hk => ?_
  have hend : (k + 1) * numMics + numMics ≤ ramWords := by
    have hk : k + 2 ≤ beats := by
      rw [List.mem_range] at hk
      omega
    rw [← hbuffer, ← Nat.succ_mul]
    exact Nat.mul_le_mul_right _ hk
  have hoffset : ((k : ℤ) + 1) * numMics = (((k + 1) * numMics : ℕ) : ℤ) := by push_cast; ring
  dsimp only
  rw [hoffset]
  refine (int_yields (inInt_natCast.mpr (by omega))).bind (seq_yields fun micIdx hmic => ?_)
  have hindex : micIdx + (k + 1) * numMics < 2 ^ 31 := by
    rw [List.mem_range] at hmic
    omega
  rw [← Nat.cast_add]
  refine (int_yields (inInt_natCast.mpr hindex)).bind (Decodes.map decode ?_)
  have hread : Yields (readArrayValueAtIndex mem bank _) _ :=
    read_yields bank (BitVec.ofInt 32 (micIdx + (k + 1) * numMics : ℕ))
  rwa [toNat_ofInt hindex] at hread

end Values

/-! ## The readers -/

section Readers

variable {mem : Bank → ℕ → BitVec 32} {samples : BitVec 32} {x : ℕ → Fin 4 → BitVec 16}

/-- The samples as words of the beats. -/
def Holds (x : ℕ → Fin 4 → BitVec 16) (n : ℕ) (mem : Bank → ℕ → BitVec 32) : Prop :=
  ∀ i ≤ n, ∀ m : Fin 4, mem .ram (m + i * 8) = (x i m).signExtend 32

theorem Stored.holds {ext2sc : BitVec 16 → BitVec 32} (hext : ∀ v, ext2sc v = v.signExtend 32)
    {micsData : ℕ → BitVec 256} {n : ℕ} (hn : n < 2 ^ 19)
    (h : Stored (fun i => regMicsData ext2sc (x i) (micsData i)) mem) : Holds x n mem := by
  intro i hi m
  have hram : ramWords = 2 ^ 22 := rfl
  rw [Nat.add_comm, Nat.mul_comm, h i m (by omega) (by omega), lane_regMicsData, hext]

/-- What the four words of a beat are returned as. -/
def samplesOf (sample : Fin 4 → BitVec 16) : List ℤ :=
  [(sample 0).toInt, (sample 1).toInt, (sample 2).toInt, (sample 3).toInt]

/-- What the halves of its first two words are returned as. -/
def halvesOf (sample : Fin 4 → BitVec 16) : List ℤ :=
  [(sample 0).toInt, (signHalf (sample 0)).toInt, (sample 1).toInt, (signHalf (sample 1)).toInt]

/-- What follows the transfer yields what the command returns. -/
theorem capture_result {p : Parser State (List ℤ)} {v : List ℤ} (h : Yields p v)
    (samples : BitVec 32) (s : State) : ((capture samples).bind (fun _ => p) s).1 = some v :=
  h.result _

theorem getMics4_result (hlt : samples.toNat < 2 ^ 19) (h : Holds x samples.toNat mem)
    (s : State) :
    (getMics4 mem samples s).1 =
      some ((List.range samples.toNat).flatMap fun k => samplesOf (x (k + 1))) := by
  have hyields : Yields (readBeats mem .ram 8 4 whole samples) _ :=
    readBeats_yields .ram whole (2 ^ 19) rfl (by decide) hlt
  rw [getMics4, capture_result hyields]
  refine congrArg some (List.flatMap_congr fun k hk => ?_)
  have hword : ∀ m : Fin 4, whole (mem .ram (m + (k + 1) * 8)) = [(x (k + 1) m).toInt] := by
    intro m
    rw [h (k + 1) (List.mem_range.mp hk) m, whole_signExtend]
  have hwords : (List.range 4).flatMap (fun micIdx => whole (mem .ram (micIdx + (k + 1) * 8))) =
      whole (mem .ram ((0 : Fin 4) + (k + 1) * 8)) ++ (whole (mem .ram ((1 : Fin 4) + (k + 1) * 8)) ++
        (whole (mem .ram ((2 : Fin 4) + (k + 1) * 8)) ++
          whole (mem .ram ((3 : Fin 4) + (k + 1) * 8)))) := by
    simp [List.range_succ]
  rw [hwords, hword, hword, hword, hword]
  rfl

theorem getMics6_result (hlt : samples.toNat < 2 ^ 19) (h : Holds x samples.toNat mem)
    (s : State) :
    ∃ more, (getMics6 mem samples s).1 =
      some ((List.range samples.toNat).flatMap (fun k => halvesOf (x (k + 1))) ++ more) := by
  have hbanks : Yields
      (seq ([Bank.ram, Bank.ram2].map fun bank => readBeats mem bank 8 2 halves samples)) _ :=
    seq_yields fun bank _ => readBeats_yields bank halves (2 ^ 19) rfl (by decide) hlt
  have hword : ∀ k < samples.toNat, ∀ m : Fin 4, halves (mem .ram (m + (k + 1) * 8)) =
      [(x (k + 1) m).toInt, (signHalf (x (k + 1) m)).toInt] := by
    intro k hk m
    rw [h (k + 1) hk m, halves_signExtend]
  have hblocks : ((List.range samples.toNat).flatMap fun k =>
      (List.range 2).flatMap fun micIdx => halves (mem .ram (micIdx + (k + 1) * 8))) =
      (List.range samples.toNat).flatMap fun k => halvesOf (x (k + 1)) := by
    refine List.flatMap_congr fun k hk => ?_
    have hwords : (List.range 2).flatMap (fun micIdx => halves (mem .ram (micIdx + (k + 1) * 8))) =
        halves (mem .ram ((0 : Fin 4) + (k + 1) * 8)) ++
          halves (mem .ram ((1 : Fin 4) + (k + 1) * 8)) := by
      simp [List.range_succ]
    rw [hwords, hword k (List.mem_range.mp hk), hword k (List.mem_range.mp hk)]
    rfl
  have hresult := capture_result hbanks samples s
  rw [List.flatMap_cons, hblocks] at hresult
  exact ⟨_, hresult⟩

/-- The readers agree just on even beats. -/
theorem agree_iff_even (hlt : samples.toNat < 2 ^ 19) (h : Holds x samples.toNat mem)
    (s s' : State) :
    Agree x samples.toNat (getMics4 mem samples s).1 (getMics6 mem samples s').1 ↔
      ∀ i, 1 ≤ i → i ≤ samples.toNat → Even (x i) := by
  obtain ⟨more, hmics6⟩ := getMics6_result hlt h s'
  have hsamples : ∀ k, (samplesOf (x (k + 1))).length = 4 := fun _ => rfl
  have hhalves : ∀ k, (halvesOf (x (k + 1))).length = 4 := fun _ => rfl
  have htake : (((List.range samples.toNat).flatMap fun k => halvesOf (x (k + 1))) ++ more).take
      (4 * samples.toNat) = (List.range samples.toNat).flatMap fun k => halvesOf (x (k + 1)) := by
    rw [← length_blocks hhalves, List.take_left]
  rw [getMics4_result hlt h s, hmics6]
  constructor
  · rintro ⟨v, hv, -, -, hv'⟩ i hi hin
    rw [Option.map_some, htake, ← hv, Option.some.injEq, blocks_inj hhalves hsamples] at hv'
    have hblock := hv' (i - 1) (by omega)
    rw [Nat.sub_add_cancel hi] at hblock
    exact (entries_eq_iff (x i)).mp hblock
  · intro heven
    refine ⟨_, rfl, length_blocks hsamples _, fun i hi hin m => ?_, ?_⟩
    · rw [getElem?_blocks hsamples (by omega) m.isLt, Nat.sub_add_cancel hi]
      match m with
      | 0 | 1 | 2 | 3 => rfl
    · rw [Option.map_some, htake, Option.some.injEq, blocks_inj hhalves hsamples]
      exact fun k hk => (entries_eq_iff (x (k + 1))).mpr (heven (k + 1) (Nat.le_add_left 1 k) hk)

theorem readers_agree_iff {ext2sc : BitVec 16 → BitVec 32}
    (hext : ∀ v, ext2sc v = v.signExtend 32) (micsData : ℕ → BitVec 256)
    (hlt : samples.toNat < 2 ^ 19)
    (h : Stored (fun i => regMicsData ext2sc (x i) (micsData i)) mem) (s s' : State) :
    Agree x samples.toNat (getMics4 mem samples s).1 (getMics6 mem samples s').1 ↔
      ∀ i, 1 ≤ i → i ≤ samples.toNat → Even (x i) :=
  agree_iff_even hlt (h.holds hext hlt) s s'

end Readers

/-- A memory with these beats in both buffers. -/
def memoryOf (beats : ℕ → BitVec 256) (_ : Bank) (index : ℕ) : BitVec 32 :=
  lane (beats (index / 8)) (index % 8)

theorem memoryOf_stored (beats : ℕ → BitVec 256) : Stored beats (memoryOf beats) := by
  intro i m hm _
  rw [memoryOf, Nat.mul_add_div (by decide), Nat.div_eq_of_lt hm, Nat.add_zero, Nat.mul_add_mod,
    Nat.mod_eq_of_lt hm]

/-- The microphones are at `1` to `4` in every beat. -/
def fixed (_ : ℕ) (m : Fin 4) : BitVec 16 := BitVec.ofNat 16 (m + 1)

def fixedBeats (i : ℕ) : BitVec 256 := regMicsData (BitVec.signExtend 32) (fixed i) 0#256

def reset : State := ⟨DmaTransfer.idle, []⟩

theorem fixed_readers_agree_iff :
    Agree fixed (1#32).toNat (getMics4 (memoryOf fixedBeats) 1#32 reset).1
        (getMics6 (memoryOf fixedBeats) 1#32 reset).1 ↔
      ∀ i, 1 ≤ i → i ≤ (1#32).toNat → Even (fixed i) :=
  readers_agree_iff (fun _ => rfl) (fun _ => 0#256) (by decide)
    (memoryOf_stored fixedBeats) reset reset

/-- One reader returns `1, 2, 3, 4`, the other `1, 0, 2, 0`. -/
theorem fixed_readers_disagree :
    Stored fixedBeats (memoryOf fixedBeats) ∧
      ¬ Agree fixed (1#32).toNat (getMics4 (memoryOf fixedBeats) 1#32 reset).1
        (getMics6 (memoryOf fixedBeats) 1#32 reset).1 := by
  have hstored := memoryOf_stored fixedBeats
  refine ⟨hstored, fun hagree => ?_⟩
  have heven := (agree_iff_even (by decide)
    (hstored.holds (fun _ => rfl) (by decide)) reset reset).mp hagree
  exact absurd (heven 1 le_rfl (by decide) 1 (by decide)) (by decide)

end MicPacking
