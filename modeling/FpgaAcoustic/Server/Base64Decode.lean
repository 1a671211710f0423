-- SUMMARY: base64_decode on every text, and when it undoes base64_encode.
import FpgaAcoustic.Server.Handshake

/-!
# base64_decode

The loop stops at the first character that is no digit. Characters that are left
then are filled up with zero bytes, which `find` does not find, and what `find`
returns then is cut down to a byte.
-/

namespace Koheron.WebSocket

open Bytes

/-! ## base64_decode -/

/-- `isalnum`. -/
def isalnum (c : Byte) : Bool :=
  (0x30 ≤ c && c ≤ 0x39) || (0x41 ≤ c && c ≤ 0x5a) || (0x61 ≤ c && c ≤ 0x7a)

def isBase64 (c : Byte) : Bool := isalnum c || c == 0x2b || c == 0x2f

/-- `base64_chars.find(c)`, as an `unsigned char`. -/
def findChar (c : Byte) : Byte := ((base64Chars.idxOf? c).map (BitVec.ofNat 8)).getD 0xff

/-- `char_array_3`. -/
def charArray3 (charArray4 : List Byte) : List Byte :=
  let c (i : ℕ) := findChar (charArray4.getD i 0)
  [(c 0 <<< 2) + ((c 1 &&& 0x30) >>> 4), ((c 1 &&& 0x0f) <<< 4) + ((c 2 &&& 0x3c) >>> 2),
    ((c 2 &&& 0x03) <<< 6) + c 3]

/-- The loop over the text, with the ones of `char_array_4` that are set. -/
def decodeLoop : List Byte → List Byte → List Byte → List Byte × List Byte
  | [], charArray4, ret => (charArray4, ret)
  | c :: text, charArray4, ret =>
    if c ≠ 0x3d ∧ isBase64 c then
      if (charArray4 ++ [c]).length = 4 then decodeLoop text [] (ret ++ charArray3 (charArray4 ++ [c]))
      else decodeLoop text (charArray4 ++ [c]) ret
    else (charArray4, ret)

/-- The characters that are left when the loop is over. -/
def decodeTail (charArray4 ret : List Byte) : List Byte :=
  let i := charArray4.length
  if i = 0 then ret
  else ret ++ (charArray3 (charArray4 ++ List.replicate (4 - i) 0)).take (i - 1)

def base64Decode (text : List Byte) : List Byte :=
  let (charArray4, ret) := decodeLoop text [] []
  decodeTail charArray4 ret

/-! ## Digits -/

theorem isBase64_iff : ∀ c : Byte, (c ≠ 0x3d ∧ isBase64 c = true) ↔ Base64.IsDigit c := by decide

theorem findChar_digit : ∀ c : Byte, Base64.IsDigit c →
    findChar c = BitVec.ofNat 8 (Base64.value c) := by decide

/-- The masks and shifts are those of the three bytes. -/
theorem toNat_masks : ∀ v : Byte, (v <<< 2).toNat = v.toNat % 64 * 4 ∧
    ((v &&& 0x30) >>> 4).toNat = v.toNat / 16 % 4 ∧ ((v &&& 0x0f) <<< 4).toNat = v.toNat % 16 * 16 ∧
    ((v &&& 0x3c) >>> 2).toNat = v.toNat / 4 % 16 ∧ ((v &&& 0x03) <<< 6).toNat = v.toNat % 4 * 64 := by
  decide

theorem octets_eq (p : ℕ) {q r v : ℕ} (hq : q < 64) (hr : r < 64) (hv : v < 64) :
    Base64.octets p q r v =
      [(BitVec.ofNat 8 p <<< 2) + ((BitVec.ofNat 8 q &&& 0x30) >>> 4),
        ((BitVec.ofNat 8 q &&& 0x0f) <<< 4) + ((BitVec.ofNat 8 r &&& 0x3c) >>> 2),
        ((BitVec.ofNat 8 r &&& 0x03) <<< 6) + BitVec.ofNat 8 v] := by
  obtain ⟨hfirst, -, -, -, -⟩ := toNat_masks (BitVec.ofNat 8 p)
  obtain ⟨-, hsecond, hthird, -, -⟩ := toNat_masks (BitVec.ofNat 8 q)
  obtain ⟨-, -, -, hfourth, hfifth⟩ := toNat_masks (BitVec.ofNat 8 r)
  simp only [BitVec.toNat_ofNat] at hfirst hsecond hthird hfourth hfifth
  simp only [Base64.octets, List.cons.injEq, and_true, ← BitVec.toNat_inj, BitVec.toNat_add,
    BitVec.toNat_ofNat, hfirst, hsecond, hthird, hfourth, hfifth]
  refine ⟨?_, ?_, ?_⟩ <;> omega

section Text

variable {c₀ c₁ c₂ c₃ : Byte} (h₀ : Base64.IsDigit c₀) (h₁ : Base64.IsDigit c₁)
  (h₂ : Base64.IsDigit c₂) (h₃ : Base64.IsDigit c₃)

include h₀ h₁

/-- Two digits hold one byte, whatever fills up the group. -/
theorem take_one_charArray3 :
    (charArray3 [c₀, c₁, 0, 0]).take 1 =
      (Base64.octets (Base64.value c₀) (Base64.value c₁) 0 0).take 1 := by
  rw [octets_eq _ (Base64.value_lt h₁) (by decide) (by decide),
    ← findChar_digit c₀ h₀, ← findChar_digit c₁ h₁]
  rfl

include h₂

theorem take_two_charArray3 :
    (charArray3 [c₀, c₁, c₂, 0]).take 2 =
      (Base64.octets (Base64.value c₀) (Base64.value c₁) (Base64.value c₂) 0).take 2 := by
  rw [octets_eq _ (Base64.value_lt h₁) (Base64.value_lt h₂) (by decide),
    ← findChar_digit c₀ h₀, ← findChar_digit c₁ h₁, ← findChar_digit c₂ h₂]
  rfl

include h₃

theorem charArray3_digits :
    charArray3 [c₀, c₁, c₂, c₃] =
      Base64.octets (Base64.value c₀) (Base64.value c₁) (Base64.value c₂) (Base64.value c₃) := by
  rw [octets_eq _ (Base64.value_lt h₁) (Base64.value_lt h₂) (Base64.value_lt h₃),
    ← findChar_digit c₀ h₀, ← findChar_digit c₁ h₁, ← findChar_digit c₂ h₂, ← findChar_digit c₃ h₃]
  rfl

end Text

/-! ## Texts -/

/-- What is left is decoded as the end of the digits. -/
theorem decodeTail_eq {cs : List Byte} (hcs : ∀ c ∈ cs, Base64.IsDigit c) (hlt : cs.length < 4)
    (ret : List Byte) : decodeTail cs ret = ret ++ Base64.decode (cs.map Base64.value) := by
  match cs, hcs, hlt with
  | [], _, _ => exact (List.append_nil ret).symm
  | [c₀], _, _ => rfl
  | [c₀, c₁], hcs, _ =>
    exact congrArg (ret ++ ·) (take_one_charArray3 (hcs c₀ (by simp)) (hcs c₁ (by simp)))
  | [c₀, c₁, c₂], hcs, _ =>
    exact congrArg (ret ++ ·)
      (take_two_charArray3 (hcs c₀ (by simp)) (hcs c₁ (by simp)) (hcs c₂ (by simp)))

/-- The loop takes the leading digits, with those that it has set aside before. -/
theorem decodeLoop_eq (text : List Byte) {cs : List Byte} (hcs : ∀ c ∈ cs, Base64.IsDigit c)
    (hlt : cs.length < 4) (ret : List Byte) :
    decodeTail (decodeLoop text cs ret).1 (decodeLoop text cs ret).2 =
      ret ++ Base64.decode ((cs ++ Base64.leading text).map Base64.value) := by
  induction text generalizing cs ret with
  | nil =>
    rw [Base64.leading, List.takeWhile_nil, List.append_nil]
    exact decodeTail_eq hcs hlt ret
  | cons c text ih =>
    by_cases hc : Base64.IsDigit c
    · have hleading : Base64.leading (c :: text) = c :: Base64.leading text :=
        List.takeWhile_cons_of_pos (decide_eq_true hc)
      have hcs' : ∀ x ∈ cs ++ [c], Base64.IsDigit x := by
        intro x hx
        rcases List.mem_append.mp hx with hx | hx
        · exact hcs x hx
        · exact List.mem_singleton.mp hx ▸ hc
      rw [decodeLoop, if_pos ((isBase64_iff c).mpr hc), hleading]
      split
      · next hfour =>
        obtain ⟨c₀, c₁, c₂, rfl⟩ : ∃ c₀ c₁ c₂, cs = [c₀, c₁, c₂] := by
          rw [List.length_append, List.length_singleton] at hfour
          exact List.length_eq_three.mp (Nat.succ_injective hfour)
        have hgroup := charArray3_digits (hcs c₀ (by simp)) (hcs c₁ (by simp)) (hcs c₂ (by simp)) hc
        rw [ih (fun _ h => absurd h List.not_mem_nil) (by decide)]
        show ret ++ charArray3 [c₀, c₁, c₂, c] ++ _ = ret ++ (Base64.octets _ _ _ _ ++ _)
        rw [hgroup, List.append_assoc]
        rfl
      · next hfour =>
        have hlt' : (cs ++ [c]).length < 4 := by
          rw [List.length_append, List.length_singleton] at hfour ⊢
          omega
        rw [ih hcs' hlt', List.append_assoc, List.singleton_append]
    · have hleading : Base64.leading (c :: text) = [] :=
        List.takeWhile_cons_of_neg (by rwa [decide_eq_true_iff])
      rw [decodeLoop, if_neg fun h => hc ((isBase64_iff c).mp h), hleading, List.append_nil]
      exact decodeTail_eq hcs hlt ret

theorem base64Decode_eq (text : List Byte) :
    base64Decode text = Base64.decode ((Base64.leading text).map Base64.value) :=
  decodeLoop_eq text (fun _ h => absurd h List.not_mem_nil) (by decide) []

/-- Digits are decoded to nothing only if there is at most one. -/
theorem decode_eq_nil_iff (values : List ℕ) : Base64.decode values = [] ↔ values.length ≤ 1 := by
  match values with
  | [] => exact ⟨fun _ => Nat.zero_le 1, fun _ => rfl⟩
  | [_] => exact ⟨fun _ => Nat.le_refl 1, fun _ => rfl⟩
  | [a, b] => simp [Base64.decode, Base64.octets]
  | [a, b, c] => simp [Base64.decode, Base64.octets]
  | a :: b :: c :: d :: values => simp [Base64.decode, Base64.octets]

/-- What has been encoded is decoded, and nothing more, whatever follows it: just
when the encoding is padded or not more than one digit follows. -/
theorem base64Decode_encode_iff (bytes rest : List Byte) :
    base64Decode (base64Encode bytes ++ rest) = bytes ↔
      (bytes.length % 3 = 0 → (Base64.leading rest).length ≤ 1) := by
  rw [base64Decode_eq, base64Encode_eq, Base64.decode_encode, List.append_right_eq_self]
  split
  · next h => rw [decode_eq_nil_iff, List.length_map, forall_prop_of_true h]
  · next h => exact ⟨fun _ h' => absurd h' h, fun _ => rfl⟩

end Koheron.WebSocket
