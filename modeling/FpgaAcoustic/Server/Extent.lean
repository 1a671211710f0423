-- SUMMARY: How many bytes of a payload the arguments of a command take up, and that the cursor of the buffer moves by just that.
import FpgaAcoustic.Server.Payload

/-!
# Extents

Where the arguments of a command end depends on the lengths that the payload
contains. A payload that is too short is continued by whatever the buffer held.
A length is sent with its high byte first, so what the payload has of it is a
lower bound.
-/

namespace Koheron

open Bytes

/-- The length of the container that starts here. -/
def lengthField (m : Memory) : ℕ := (extract .uint32 m).toNat

/-- The size of a container of elements of `size` bytes with its length, or none
where the session refuses the length. -/
def containerExtent (size : ℕ) (m : Memory) : Option ℕ :=
  if lengthField m > cmdPayloadBufferLen then none
  else some (Scalar.uint32.size + lengthField m / size * size)

def Pack.extent : Pack → Memory → Option ℕ
  | .scalars tys, _ => some (requiredBufferSize tys)
  | .array ty n, _ => some (n * ty.size)
  | .vector ty, m => containerExtent ty.size m
  | .string, m => containerExtent 1 m

/-- The number of bytes from the start of the first pack to the end of the last. -/
def extent : List Pack → Memory → Option ℕ
  | [], _ => some 0
  | p :: ps, m => (p.extent m).bind fun n => (extent ps (m.drop n)).map (n + ·)

theorem extent_cons {p : Pack} {m : Memory} {n : ℕ} (h : p.extent m = some n) (ps : List Pack) :
    extent (p :: ps) m = (extent ps (m.drop n)).map (n + ·) := by
  rw [extent, h, Option.bind_some]

/-! ## The cursor -/

namespace Buffer

theorem skip_skip (b : Buffer) (j k : ℕ) : (b.skip j).skip k = b.skip (j + k) := by
  simp only [skip, Nat.add_assoc]

/-- The parser fails where there is no extent, and else takes just the extent. -/
structure Takes {α : Type} (p : Parser Buffer α) (b : Buffer) (ext : Option ℕ) : Prop where
  refuses : ext = none → (p b).1 = none
  accepts : ∀ n, ext = some n → ∃ a, p b = (some a, b.skip n)

theorem takes_none {α : Type} {p : Parser Buffer α} {b : Buffer} (h : (p b).1 = none) :
    Takes p b none := by
  refine ⟨fun _ => h, ?_⟩
  intro n hn
  simp at hn

theorem takes_some {α : Type} {p : Parser Buffer α} {b : Buffer} {n : ℕ} {a : α}
    (h : p b = (some a, b.skip n)) : Takes p b (some n) := by
  refine ⟨by simp, ?_⟩
  intro k hk
  obtain rfl : n = k := Option.some.inj hk
  exact ⟨a, h⟩

theorem Takes.map {α β : Type} {p : Parser Buffer α} {b : Buffer} {ext : Option ℕ}
    (h : Takes p b ext) (f : α → β) : Takes (p.map f) b ext := by
  refine ⟨fun hext => Parser.map_eq_none.mpr (h.refuses hext), ?_⟩
  intro n hext
  obtain ⟨a, ha⟩ := h.accepts n hext
  exact ⟨f a, Parser.map_some ha⟩

theorem takes_checked {α : Type} {f : Buffer → (ℤ × α) × Buffer} {b : Buffer} {n : ℕ} {a : α}
    (h : f b = ((0, a), b.skip n)) : Takes (checked f) b (some n) := by
  refine takes_some (a := a) ?_
  simp [checked, h]

theorem takes_checked_none {α : Type} {f : Buffer → (ℤ × α) × Buffer} {b b' : Buffer} {a : α}
    (h : f b = ((-1, a), b')) : Takes (checked f) b none := by
  apply takes_none
  simp [checked, h]

theorem recvVector_takes (ty : Scalar) (b : Buffer) :
    Takes (checked (recvVector ty)) b (containerExtent ty.size b.begin) := by
  have hlen : b.length = (lengthField b.begin, b.skip Scalar.uint32.size) := rfl
  rcases lt_or_ge cmdPayloadBufferLen (lengthField b.begin) with hgt | hle
  · rw [containerExtent, if_pos hgt]
    apply takes_checked_none
    unfold recvVector
    simp only [hlen, if_pos hgt]
    rfl
  · rw [containerExtent, if_neg hle.not_gt]
    apply takes_checked
    unfold recvVector
    simp only [hlen, if_neg hle.not_gt, toVector, skip_skip]
    rfl

theorem recvString_takes (b : Buffer) :
    Takes (checked recvString) b (containerExtent 1 b.begin) := by
  have hlen : b.length = (lengthField b.begin, b.skip Scalar.uint32.size) := rfl
  rcases lt_or_ge cmdPayloadBufferLen (lengthField b.begin) with hgt | hle
  · rw [containerExtent, if_pos hgt]
    apply takes_checked_none
    unfold recvString
    simp only [hlen, if_pos hgt]
    rfl
  · rw [containerExtent, if_neg hle.not_gt, Nat.div_one, Nat.mul_one]
    apply takes_checked
    unfold recvString
    simp only [hlen, if_neg hle.not_gt, toString, skip_skip]
    rfl

theorem parsePack_takes (p : Pack) (b : Buffer) :
    Takes (session.parsePack p) b (p.extent b.begin) := by
  cases p with
  | scalars tys => exact (takes_checked rfl).map _
  | array ty n => exact (takes_checked rfl).map _
  | vector ty =>
    have hvec := (recvVector_takes ty b).map fun es => [Value.vector ty es]
    rwa [← session_recvVector] at hvec
  | string =>
    have hstr := (recvString_takes b).map fun bytes => [Value.string bytes]
    rwa [← session_recvString] at hstr

/-- The cursor moves by the extent of the packs. -/
theorem seq_parsePack_takes (ps : List Pack) (b : Buffer) :
    Takes (Parser.seq (ps.map session.parsePack)) b (extent ps b.begin) := by
  induction ps generalizing b with
  | nil => exact takes_some rfl
  | cons p ps ih =>
    have hp := parsePack_takes p b
    cases hext : p.extent b.begin with
    | none =>
      rw [extent, hext, Option.bind_none]
      have hnone : session.parsePack p b = (none, (session.parsePack p b).2) :=
        Prod.ext (hp.refuses hext) rfl
      apply takes_none
      rw [List.map_cons, Parser.seq, Parser.bind_none hnone]
    | some n =>
      obtain ⟨vs, hvs⟩ := hp.accepts n hext
      have hps := (ih (b.skip n)).map (vs ++ ·)
      rw [begin_skip] at hps
      rw [extent_cons hext]
      cases hrest : extent ps (b.begin.drop n) with
      | none =>
        apply takes_none
        rw [List.map_cons, Parser.seq, Parser.bind_some hvs]
        exact hps.refuses hrest
      | some k =>
        obtain ⟨ws, hws⟩ := hps.accepts k hrest
        rw [skip_skip] at hws
        refine takes_some (a := ws) ?_
        rw [List.map_cons, Parser.seq, Parser.bind_some hvs, hws]

end Buffer

/-! ## Payloads that end -/

section Starts

variable {m : Memory} {bs : List Byte}

theorem lengthField_of_starts (h : m.Starts bs) (hlen : Scalar.uint32.size ≤ bs.length) :
    lengthField m = lengthField (Memory.ofBytes bs) := by
  have hm : ∀ i < bs.length, m i = Memory.ofBytes bs i := fun i hi => h.apply_eq_ofBytes hi
  have hsize : Scalar.uint32.size = 4 := rfl
  simp only [lengthField, extract, toNat_extract32]
  rw [hm 0 (by omega), hm 1 (by omega), hm 2 (by omega), hm 3 (by omega)]

/-- What is missing of a length can only make it larger. -/
theorem lengthField_ofBytes_le (h : m.Starts bs) :
    lengthField (Memory.ofBytes bs) ≤ lengthField m := by
  have hm : ∀ i, (Memory.ofBytes bs i).toNat ≤ (m i).toNat := by
    intro i
    rcases lt_or_ge i bs.length with hi | hi
    · rw [h.apply_eq_ofBytes hi]
    · rw [Memory.ofBytes_of_length_le hi]
      exact Nat.zero_le _
  have h0 := hm 0
  have h1 := hm 1
  have h2 := hm 2
  have h3 := hm 3
  simp only [lengthField, extract, toNat_extract32]
  omega

theorem containerExtent_of_none {size : ℕ} (h : m.Starts bs)
    (hext : containerExtent size (Memory.ofBytes bs) = none) : containerExtent size m = none := by
  have hle := lengthField_ofBytes_le h
  unfold containerExtent at hext ⊢
  rw [ite_eq_left_iff] at hext ⊢
  intro hnot
  exact absurd (hext (by omega)) (by simp)

theorem containerExtent_of_some {size n : ℕ} (h : m.Starts bs)
    (hext : containerExtent size (Memory.ofBytes bs) = some n) (hn : n ≤ bs.length) :
    containerExtent size m = some n := by
  have hsize : Scalar.uint32.size ≤ n := by
    unfold containerExtent at hext
    rw [Option.ite_none_left_eq_some] at hext
    rw [← Option.some.inj hext.2]
    exact Nat.le_add_right _ _
  unfold containerExtent at hext ⊢
  rwa [lengthField_of_starts h (hsize.trans hn)]

theorem Pack.extent_of_none {p : Pack} (h : m.Starts bs)
    (hext : p.extent (Memory.ofBytes bs) = none) : p.extent m = none := by
  cases p with
  | scalars tys | array ty n => simp [Pack.extent] at hext
  | vector ty => exact containerExtent_of_none h hext
  | string => exact containerExtent_of_none h hext

theorem Pack.extent_of_some {p : Pack} {n : ℕ} (h : m.Starts bs)
    (hext : p.extent (Memory.ofBytes bs) = some n) (hn : n ≤ bs.length) : p.extent m = some n := by
  cases p with
  | scalars tys | array ty k => exact hext
  | vector ty => exact containerExtent_of_some h hext hn
  | string => exact containerExtent_of_some h hext hn

/-- Where there are only zeros no length is refused. -/
theorem extent_zeros (ps : List Pack) : ∃ n, extent ps (Memory.ofBytes []) = some n := by
  have hzero : ∀ size, containerExtent size (Memory.ofBytes []) = some (0 + 4) := by
    intro size
    have hfield : lengthField (Memory.ofBytes []) = 0 := rfl
    rw [containerExtent, hfield, if_neg (Nat.not_lt_zero _), Nat.zero_div, Nat.zero_mul]
    rfl
  have hpack : ∀ p : Pack, ∃ n, p.extent (Memory.ofBytes []) = some n := by
    intro p
    cases p with
    | scalars tys | array ty n => exact ⟨_, rfl⟩
    | vector ty => exact ⟨_, hzero _⟩
    | string => exact ⟨_, hzero _⟩
  induction ps with
  | nil => exact ⟨0, rfl⟩
  | cons p ps ih =>
    obtain ⟨n, hn⟩ := hpack p
    obtain ⟨k, hk⟩ := ih
    refine ⟨n + k, ?_⟩
    rw [extent_cons hn, Memory.drop_ofBytes, List.drop_nil, hk, Option.map_some]

/-- Arguments that lie within the payload take up what they do before zeros. -/
theorem extent_of_some {ps : List Pack} {n : ℕ} (h : m.Starts bs)
    (hext : extent ps (Memory.ofBytes bs) = some n) (hn : n ≤ bs.length) : extent ps m = some n := by
  induction ps generalizing m bs n with
  | nil => exact hext
  | cons p ps ih =>
    obtain ⟨j, hj, hrest⟩ := Option.bind_eq_some_iff.mp hext
    obtain ⟨k, hk, rfl⟩ := Option.map_eq_some_iff.mp hrest
    rw [Memory.drop_ofBytes] at hk
    have hpack := Pack.extent_of_some h hj (by omega)
    have hlen : k ≤ (bs.drop j).length := by
      rw [List.length_drop]
      omega
    rw [extent_cons hpack, ih (h.drop j) hk hlen, Option.map_some]

/-- A length that is refused before zeros is refused before anything. -/
theorem extent_of_none {ps : List Pack} (h : m.Starts bs)
    (hext : extent ps (Memory.ofBytes bs) = none) : extent ps m = none := by
  induction ps generalizing m bs with
  | nil => exact hext
  | cons p ps ih =>
    cases hp : p.extent (Memory.ofBytes bs) with
    | none => rw [extent, Pack.extent_of_none h hp, Option.bind_none]
    | some n =>
      rw [extent_cons hp, Option.map_eq_none_iff, Memory.drop_ofBytes] at hext
      rcases lt_or_ge bs.length n with hlt | hle
      · rw [List.drop_of_length_le hlt.le] at hext
        obtain ⟨k, hk⟩ := extent_zeros ps
        rw [hk] at hext
        simp at hext
      · rw [extent_cons (Pack.extent_of_some h hp hle), ih (h.drop n) hext, Option.map_none]

end Starts

end Koheron
