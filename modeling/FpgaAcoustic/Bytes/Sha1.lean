-- SUMMARY: The secure hash algorithm as the standard has it: padding, message schedule, rounds and digest.
import FpgaAcoustic.Bytes.Blocks
import FpgaAcoustic.Bytes.Memory

/-!
# SHA-1

The message is padded to whole blocks of 64 bytes. A block makes a schedule of 80
words, each with a round on five working variables, whose values at the end are
added to the hash value. Words are big-endian.
-/

namespace Bytes.Sha1

abbrev Word : Type := BitVec 32

/-- Five words: the working variables, and the hash value. -/
@[ext]
structure Hash where
  a : Word
  b : Word
  c : Word
  d : Word
  e : Word
deriving DecidableEq, Repr

/-! ## Functions and constants -/

def ch (x y z : Word) : Word := (x &&& y) ^^^ (~~~x &&& z)

def parity (x y z : Word) : Word := x ^^^ y ^^^ z

def maj (x y z : Word) : Word := (x &&& y) ^^^ (x &&& z) ^^^ (y &&& z)

/-- The function of round `t`. -/
def function (t : ℕ) : Word → Word → Word → Word :=
  if t < 20 then ch else if t < 40 then parity else if t < 60 then maj else parity

/-- The constant of round `t`. -/
def constant (t : ℕ) : Word :=
  if t < 20 then 0x5a827999 else if t < 40 then 0x6ed9eba1 else if t < 60 then 0x8f1bbcdc
  else 0xca62c1d6

def initial : Hash := ⟨0x67452301, 0xefcdab89, 0x98badcfe, 0x10325476, 0xc3d2e1f0⟩

/-! ## Blocks -/

/-- Word `i` of a block. -/
def word (block : List Byte) (i : ℕ) : Word :=
  block.getD (4 * i) 0 ++ block.getD (4 * i + 1) 0 ++ block.getD (4 * i + 2) 0 ++
    block.getD (4 * i + 3) 0

/-- The message schedule. -/
def schedule (m : ℕ → Word) (t : ℕ) : Word :=
  if t < 16 then m t
  else (schedule m (t - 3) ^^^ schedule m (t - 8) ^^^ schedule m (t - 14) ^^^
    schedule m (t - 16)).rotateLeft 1
termination_by t

def round (w : ℕ → Word) (v : Hash) (t : ℕ) : Hash where
  a := v.a.rotateLeft 5 + function t v.b v.c v.d + v.e + constant t + w t
  b := v.a
  c := v.b.rotateLeft 30
  d := v.c
  e := v.d

/-- The rounds before round `t`. -/
def rounds (w : ℕ → Word) (h : Hash) (t : ℕ) : Hash := (List.range t).foldl (round w) h

def compress (h : Hash) (block : List Byte) : Hash :=
  let v := rounds (schedule (word block)) h 80
  ⟨h.a + v.a, h.b + v.b, h.c + v.c, h.d + v.d, h.e + v.e⟩

/-! ## Messages -/

/-- The `n` low bytes of `v`, the highest first. -/
def beBytes (n v : ℕ) : List Byte := (leBytes n v).reverse

/-- The number of zero bytes, the least that fills a block. -/
def zeros (length : ℕ) : ℕ := (119 - length % 64) % 64

/-- A one bit, zeros, and the length of the message in bits. -/
def padding (length : ℕ) : List Byte :=
  0x80 :: List.replicate (zeros length) 0 ++ beBytes 8 (8 * length)

def pad (message : List Byte) : List Byte := message ++ padding message.length

def hash (message : List Byte) : Hash :=
  Blocks.fold 64 compress initial (pad message) ((pad message).length / 64)

def Hash.bytes (h : Hash) : List Byte :=
  [h.a, h.b, h.c, h.d, h.e].flatMap fun w => beBytes 4 w.toNat

def digest (message : List Byte) : List Byte := (hash message).bytes

/-! ## Lemmas -/

/-- The bytes of a number, as they stand in a word. -/
theorem extractLsb'_ofNat (w i v : ℕ) (h : 8 * i + 8 ≤ w) :
    (BitVec.ofNat w v).extractLsb' (8 * i) 8 = BitVec.ofNat 8 (v / 256 ^ i) := by
  have hpow : 256 ^ i = 2 ^ (8 * i) := (pow_mul 2 8 i).symm
  refine BitVec.eq_of_getLsbD_eq fun j hj => ?_
  have hin : 8 * i + j < w := by omega
  rw [BitVec.getLsbD_extractLsb', BitVec.getLsbD_ofNat, BitVec.getLsbD_ofNat, hpow,
    Nat.testBit_div_two_pow, decide_eq_true hin, Bool.true_and, Nat.add_comm j]

@[simp] theorem length_beBytes (n v : ℕ) : (beBytes n v).length = n := by
  rw [beBytes, List.length_reverse, length_leBytes]

theorem zeros_lt (length : ℕ) : zeros length < 64 := Nat.mod_lt _ (by decide)

theorem length_padding (length : ℕ) : (padding length).length = zeros length + 9 := by
  rw [padding, List.cons_append, List.length_cons, List.length_append, List.length_replicate,
    length_beBytes]

/-- A padded message is made of whole blocks. -/
theorem length_pad (message : List Byte) :
    (pad message).length = 64 * ((pad message).length / 64) := by
  rw [pad, List.length_append, length_padding, zeros]
  omega

/-- The machine that is fed the padded message has its hash value in the end. -/
theorem feed_pad (message : List Byte) :
    Blocks.feed 64 compress (initial, []) (pad message) = (hash message, []) :=
  Blocks.feed_eq_fold (by decide) (length_pad message)

theorem schedule_of_lt {m : ℕ → Word} {t : ℕ} (h : t < 16) : schedule m t = m t := by
  rw [schedule, if_pos h]

theorem schedule_of_le {m : ℕ → Word} {t : ℕ} (h : 16 ≤ t) :
    schedule m t = (schedule m (t - 3) ^^^ schedule m (t - 8) ^^^ schedule m (t - 14) ^^^
      schedule m (t - 16)).rotateLeft 1 := by
  rw [schedule, if_neg (Nat.not_lt.mpr h)]

theorem rounds_succ (w : ℕ → Word) (h : Hash) (t : ℕ) :
    rounds w h (t + 1) = round w (rounds w h t) t := by
  rw [rounds, rounds, List.range_succ, List.foldl_append, List.foldl_cons, List.foldl_nil]

end Bytes.Sha1
