-- SUMMARY: The base64 encoding of bytes, by groups of three.
import FpgaAcoustic.Bytes.Memory

/-!
# Base64

Three bytes make a number of 24 bits, which is written with four digits of six
bits. A group that is not full is filled up with zeros, and the digits that say
nothing are replaced by `=`.
-/

namespace Bytes

/-- The bytes of a text. -/
def ascii (s : String) : List Byte := s.toList.map fun c => BitVec.ofNat 8 c.toNat

namespace Base64

def alphabet : List Byte := ascii "ABCDEFGHIJKLMNOPQRSTUVWXYZabcdefghijklmnopqrstuvwxyz0123456789+/"

def pad : Byte := 0x3d

/-- The four values of a group. -/
def sextets (a b c : Byte) : List ℕ :=
  let bits := a.toNat * 2 ^ 16 + b.toNat * 2 ^ 8 + c.toNat
  [bits / 2 ^ 18, bits / 2 ^ 12 % 2 ^ 6, bits / 2 ^ 6 % 2 ^ 6, bits % 2 ^ 6]

def digits (values : List ℕ) : List Byte := values.map fun v => alphabet.getD v 0

def encode : List Byte → List Byte
  | [] => []
  | [a] => digits ((sextets a 0 0).take 2) ++ [pad, pad]
  | [a, b] => digits ((sextets a b 0).take 3) ++ [pad]
  | a :: b :: c :: bytes => digits (sextets a b c) ++ encode bytes

/-- Four digits for each group that has been begun. -/
theorem length_encode (bytes : List Byte) : (encode bytes).length = 4 * ((bytes.length + 2) / 3) := by
  induction bytes using encode.induct with
  | case1 => rfl
  | case2 a => simp [encode, digits, sextets]
  | case3 a b => simp [encode, digits, sextets]
  | case4 a b c bytes ih =>
    rw [encode, List.length_append, ih, List.length_cons, List.length_cons, List.length_cons]
    have hfour : (digits (sextets a b c)).length = 4 := by simp [digits, sextets]
    omega

example : encode (ascii "Man") = ascii "TWFu" ∧ encode (ascii "Ma") = ascii "TWE=" := by decide

/-! ## Decoding -/

def IsDigit (c : Byte) : Prop := c ∈ alphabet

instance (c : Byte) : Decidable (IsDigit c) := inferInstanceAs (Decidable (c ∈ alphabet))

/-- The value of a digit. -/
def value (c : Byte) : ℕ := alphabet.idxOf c

/-- The three bytes of a group. -/
def octets (a b c d : ℕ) : List Byte :=
  let bits := a * 2 ^ 18 + b * 2 ^ 12 + c * 2 ^ 6 + d
  [BitVec.ofNat 8 (bits / 2 ^ 16), BitVec.ofNat 8 (bits / 2 ^ 8), BitVec.ofNat 8 bits]

/-- The whole bytes that the values of some digits hold. -/
def decode : List ℕ → List Byte
  | a :: b :: c :: d :: values => octets a b c d ++ decode values
  | [a, b, c] => (octets a b c 0).take 2
  | [a, b] => (octets a b 0 0).take 1
  | _ => []

/-- The digits that a text begins with. -/
def leading (text : List Byte) : List Byte := text.takeWhile fun c => decide (IsDigit c)

theorem digit_isDigit : ∀ v < 64, IsDigit (alphabet.getD v 0) := by decide

theorem value_digit : ∀ v < 64, value (alphabet.getD v 0) = v := by decide

theorem value_lt {c : Byte} (h : IsDigit c) : value c < 64 := List.idxOf_lt_length_of_mem h

theorem sextets_lt (a b c : Byte) : ∀ v ∈ sextets a b c, v < 64 := by
  have ha := a.isLt
  have hb := b.isLt
  have hc := c.isLt
  simp only [sextets, List.mem_cons, List.not_mem_nil, or_false, forall_eq_or_imp, forall_eq]
  omega

theorem digits_isDigit {values : List ℕ} (h : ∀ v ∈ values, v < 64) :
    ∀ c ∈ digits values, IsDigit c := by
  intro c hc
  obtain ⟨v, hv, rfl⟩ := List.mem_map.mp hc
  exact digit_isDigit v (h v hv)

theorem map_value_digits {values : List ℕ} (h : ∀ v ∈ values, v < 64) :
    (digits values).map value = values := by
  rw [digits, List.map_map]
  exact (List.map_congr_left fun v hv => value_digit v (h v hv)).trans (List.map_id values)

theorem octets_sextets (a b c : Byte) :
    ∃ p q r v, sextets a b c = [p, q, r, v] ∧ octets p q r v = [a, b, c] := by
  refine ⟨_, _, _, _, rfl, ?_⟩
  have ha := a.isLt
  have hb := b.isLt
  have hc := c.isLt
  generalize hbits : a.toNat * 2 ^ 16 + b.toNat * 2 ^ 8 + c.toNat = bits
  have hjoin : bits / 2 ^ 18 * 2 ^ 18 + bits / 2 ^ 12 % 2 ^ 6 * 2 ^ 12 + bits / 2 ^ 6 % 2 ^ 6 * 2 ^ 6 +
      bits % 2 ^ 6 = bits := by
    clear hbits ha hb hc
    omega
  have hfirst : BitVec.ofNat 8 (bits / 2 ^ 16) = a := by
    rw [← BitVec.toNat_inj, BitVec.toNat_ofNat]
    omega
  have hsecond : BitVec.ofNat 8 (bits / 2 ^ 8) = b := by
    rw [← BitVec.toNat_inj, BitVec.toNat_ofNat]
    omega
  have hthird : BitVec.ofNat 8 bits = c := by
    rw [← BitVec.toNat_inj, BitVec.toNat_ofNat]
    omega
  rw [octets, hjoin, hfirst, hsecond, hthird]

/-- The first byte is that of the first two values, and the second one that of
the first three. -/
theorem octets_take_one (p q : ℕ) {r v : ℕ} (hr : r < 64) (hv : v < 64) :
    (octets p q r v).take 1 = (octets p q 0 0).take 1 := by
  have hfirst : (p * 2 ^ 18 + q * 2 ^ 12 + r * 2 ^ 6 + v) / 2 ^ 16 =
      (p * 2 ^ 18 + q * 2 ^ 12 + 0 * 2 ^ 6 + 0) / 2 ^ 16 := by omega
  simp only [octets, List.take_succ_cons, List.take_zero, hfirst]

theorem octets_take_two (p q r : ℕ) {v : ℕ} (hv : v < 64) :
    (octets p q r v).take 2 = (octets p q r 0).take 2 := by
  have hfirst : (p * 2 ^ 18 + q * 2 ^ 12 + r * 2 ^ 6 + v) / 2 ^ 16 =
      (p * 2 ^ 18 + q * 2 ^ 12 + r * 2 ^ 6 + 0) / 2 ^ 16 := by omega
  have hsecond : (p * 2 ^ 18 + q * 2 ^ 12 + r * 2 ^ 6 + v) / 2 ^ 8 =
      (p * 2 ^ 18 + q * 2 ^ 12 + r * 2 ^ 6 + 0) / 2 ^ 8 := by omega
  simp only [octets, List.take_succ_cons, List.take_zero, hfirst, hsecond]

theorem leading_append {text rest : List Byte} (h : ∀ c ∈ text, IsDigit c) :
    leading (text ++ rest) = text ++ leading rest :=
  List.takeWhile_append_of_pos fun c hc => decide_eq_true (h c hc)

theorem leading_digits {values : List ℕ} (h : ∀ v ∈ values, v < 64) (rest : List Byte) :
    (leading (digits values ++ rest)).map value = values ++ (leading rest).map value := by
  rw [leading_append (digits_isDigit h), List.map_append, map_value_digits h]

theorem leading_pad (rest : List Byte) : leading (pad :: rest) = [] :=
  List.takeWhile_cons_of_neg (by decide)

/-- Padding ends the encoded bytes; without it, what is decoded goes on with the
digits that follow. -/
theorem decode_encode (bytes rest : List Byte) :
    decode ((leading (encode bytes ++ rest)).map value) =
      bytes ++ if bytes.length % 3 = 0 then decode ((leading rest).map value) else [] := by
  induction bytes using encode.induct with
  | case1 => rfl
  | case2 a =>
    obtain ⟨p, q, r, v, hsextets, hoctets⟩ := octets_sextets a 0 0
    have hlt := sextets_lt a 0 0
    rw [hsextets] at hlt
    have hpad : leading ([pad, pad] ++ rest) = [] := leading_pad _
    rw [encode, hsextets, List.append_assoc,
      leading_digits fun w hw => hlt w (List.mem_of_mem_take (i := 2) hw), hpad]
    show (octets p q 0 0).take 1 = _
    rw [← octets_take_one p q (hlt r (by simp)) (hlt v (by simp)), hoctets]
    rfl
  | case3 a b =>
    obtain ⟨p, q, r, v, hsextets, hoctets⟩ := octets_sextets a b 0
    have hlt := sextets_lt a b 0
    rw [hsextets] at hlt
    have hpad : leading ([pad] ++ rest) = [] := leading_pad _
    rw [encode, hsextets, List.append_assoc,
      leading_digits fun w hw => hlt w (List.mem_of_mem_take (i := 3) hw), hpad]
    show (octets p q r 0).take 2 = _
    rw [← octets_take_two p q r (hlt v (by simp)), hoctets]
    rfl
  | case4 a b c bytes ih =>
    obtain ⟨p, q, r, v, hsextets, hoctets⟩ := octets_sextets a b c
    have hlt := sextets_lt a b c
    rw [hsextets] at hlt
    rw [encode, hsextets, List.append_assoc, leading_digits hlt]
    show octets p q r v ++ decode ((leading (encode bytes ++ rest)).map value) = _
    rw [hoctets, ih, List.length_cons, List.length_cons, List.length_cons]
    simp only [Nat.add_assoc, Nat.add_mod_right]
    rfl

end Base64

end Bytes
