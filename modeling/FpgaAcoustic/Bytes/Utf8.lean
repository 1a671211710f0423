-- SUMMARY: UTF-8 encodings of strings, and the number of code points in the bytes of one.
import FpgaAcoustic.Bytes.Memory

/-!
# UTF-8

The number of characters of a string can be counted in its encoding, where each
character has one byte that is not a continuation byte.
-/

namespace Bytes

/-- The encoding of a string. -/
def utf8 (s : List Char) : List Byte :=
  s.flatMap fun c => (String.utf8EncodeChar c).map UInt8.toBitVec

/-- The byte is not the first one of its character. -/
def isContinuation (b : Byte) : Bool := 0x80 ≤ b.toNat && b.toNat < 0xc0

/-- The characters that begin among the bytes. -/
def codePoints (bs : List Byte) : ℕ := bs.countP fun b => !isContinuation b

theorem codePoints_le (bs : List Byte) : codePoints bs ≤ bs.length := List.countP_le_length

theorem codePoints_append (bs cs : List Byte) :
    codePoints (bs ++ cs) = codePoints bs + codePoints cs := List.countP_append

theorem codePoints_encodeChar (c : Char) :
    codePoints ((String.utf8EncodeChar c).map UInt8.toBitVec) = 1 := by
  have hlead : ∀ n, n < 256 → (n < 0x80 ∨ 0xc0 ≤ n) →
      isContinuation (UInt8.ofNat n).toBitVec = false := by
    intro n hn hlead
    simp [isContinuation, Nat.mod_eq_of_lt hn]
    omega
  have hcont : ∀ n, isContinuation (UInt8.ofNat (n % 0x40 + 0x80)).toBitVec = true := by
    intro n
    simp [isContinuation]
    omega
  simp only [String.utf8EncodeChar]
  -- One case for each number of bytes; only the first byte is counted.
  split
  · simp only [codePoints, List.map_cons, List.map_nil, List.countP_cons, List.countP_nil,
      hlead c.val.toNat (by omega) (.inl (by omega))]
    rfl
  · split
    · simp only [codePoints, List.map_cons, List.map_nil, List.countP_cons, List.countP_nil, hcont,
        hlead (c.val.toNat / 64 % 0x20 + 0xc0) (by omega) (.inr (by omega))]
      rfl
    · split
      · simp only [codePoints, List.map_cons, List.map_nil, List.countP_cons, List.countP_nil, hcont,
          hlead (c.val.toNat / 4096 % 0x10 + 0xe0) (by omega) (.inr (by omega))]
        rfl
      · simp only [codePoints, List.map_cons, List.map_nil, List.countP_cons, List.countP_nil, hcont,
          hlead (c.val.toNat / 262144 % 0x08 + 0xf0) (by omega) (.inr (by omega))]
        rfl

theorem codePoints_utf8 (s : List Char) : codePoints (utf8 s) = s.length := by
  induction s with
  | nil => rfl
  | cons c s ih =>
    have hcons : utf8 (c :: s) = (String.utf8EncodeChar c).map UInt8.toBitVec ++ utf8 s := rfl
    rw [hcons, codePoints_append, codePoints_encodeChar, ih, List.length_cons, Nat.add_comm]

/-- Only for ASCII does the encoding have as many bytes as the string has characters. -/
theorem length_utf8_eq_iff (s : List Char) :
    (utf8 s).length = s.length ↔ ∀ c ∈ s, c.val ≤ 127 := by
  have hle : ∀ s, s.length ≤ (utf8 s).length := by
    intro s
    rw [← codePoints_utf8 s]
    exact codePoints_le _
  induction s with
  | nil => simp [utf8]
  | cons c s ih =>
    have hcons : (utf8 (c :: s)).length = c.utf8Size + (utf8 s).length := by
      simp [utf8]
    have hsize := c.utf8Size_pos
    have hs := hle s
    rw [hcons, List.length_cons, List.forall_mem_cons, ← Char.utf8Size_eq_one_iff]
    constructor
    · intro hlen
      exact ⟨by omega, ih.mp (by omega)⟩
    · rintro ⟨hc, htail⟩
      have hrest := ih.mpr htail
      omega

end Bytes
