-- SUMMARY: SHA1 on a context of one block, and that it returns the digest of the standard for every message.
import FpgaAcoustic.Bytes.Sha1
import Mathlib.Logic.Function.Basic

/-!
# SHA1

A context keeps one block, which is filled by copies and by single bytes. A full
block is hashed in place: its bytes are put in the order of the host, and the
schedule is a ring of its sixteen words. The host is little-endian.
-/

namespace Koheron.Sha1

open Bytes
open Bytes.Sha1 (Word Hash)

/-! ## Contexts -/

/-- `sha1_ctxt`. -/
structure Ctxt where
  h : Hash
  c : BitVec 64
  m : Memory
  count : ℕ

/-- `COUNT += n; COUNT %= 64;` on a byte. -/
def addCount (count n : ℕ) : ℕ := (count + n) % 2 ^ 8 % 64

/-- `memcpy(&ctxt->m.b8[start], bytes, ..)`, and `COUNT` then. -/
def Ctxt.copy (ctxt : Ctxt) (start : ℕ) (bytes : List Byte) : Ctxt :=
  { ctxt with m := ctxt.m.writeAt start bytes, count := addCount ctxt.count bytes.length }

/-! ## sha1_step -/

def S (n : ℕ) (x : Word) : Word := (x <<< n) ||| (x >>> (32 - n))

def F0 (b c d : Word) : Word := (b &&& c) ||| (~~~b &&& d)

def F1 (b c d : Word) : Word := (b ^^^ c) ^^^ d

def F2 (b c d : Word) : Word := (b &&& c) ||| (b &&& d) ||| (c &&& d)

def F3 (b c d : Word) : Word := (b ^^^ c) ^^^ d

/-- `K(t)`. -/
def K (t : ℕ) : Word := [0x5a827999, 0x6ed9eba1, 0x8f1bbcdc, 0xca62c1d6].getD (t / 20) 0

/-- The bytes of each word of the block the other way round. -/
def swap (m : Memory) : Memory := fun i => m (4 * (i / 4) + (3 - i % 4))

abbrev Ring : Type := Vector Word 16

/-- `n & 0x0f`. -/
def wrap (n : ℕ) : Fin 16 := ⟨n &&& 0x0f, Nat.lt_succ_of_le Nat.and_le_right⟩

/-- `ctxt->m.b32`. -/
def b32 (m : Memory) : Ring :=
  Vector.ofFn fun n => m (4 * n + 3) ++ m (4 * n + 2) ++ m (4 * n + 1) ++ m (4 * n)

/-- `W(s) = S(1, ..)`. -/
def expand (W : Ring) (t : ℕ) : Ring :=
  let s := wrap t
  W.set s (S 1 (W.get (wrap (s + 13)) ^^^ W.get (wrap (s + 8)) ^^^ W.get (wrap (s + 2)) ^^^ W.get s))

def rotate (F : Word → Word → Word → Word) (W : Ring) (v : Hash) (t : ℕ) : Hash :=
  let tmp := S 5 v.a + F v.b v.c v.d + v.e + W.get (wrap t) + K t
  ⟨tmp, v.a, S 30 v.b, v.c, v.d⟩

/-- The body of the first loop, which has the words of the block for 16 rounds. -/
def firstBody (x : Ring × Hash) (t : ℕ) : Ring × Hash :=
  let W := if 16 ≤ t then expand x.1 t else x.1
  (W, rotate F0 W x.2 t)

def body (F : Word → Word → Word → Word) (x : Ring × Hash) (t : ℕ) : Ring × Hash :=
  let W := expand x.1 t
  (W, rotate F W x.2 t)

/-- `for (t = start; t < start + 20; t++)`. -/
def loop20 (body : Ring × Hash → ℕ → Ring × Hash) (start : ℕ) (x : Ring × Hash) : Ring × Hash :=
  (List.range' start 20).foldl body x

def sha1Step (ctxt : Ctxt) : Ctxt :=
  let x := (b32 (swap ctxt.m), ctxt.h)
  let x := loop20 firstBody 0 x
  let x := loop20 (body F1) 20 x
  let x := loop20 (body F2) 40 x
  let v := (loop20 (body F3) 60 x).2
  let h := ctxt.h
  { ctxt with
    h := ⟨h.a + v.a, h.b + v.b, h.c + v.c, h.d + v.d, h.e + v.e⟩
    m := ctxt.m.writeAt 0 (List.replicate 64 0) }

/-! ## Messages -/

def sha1Init : Ctxt where
  h := ⟨0x67452301, 0xefcdab89, 0x98badcfe, 0x10325476, 0xc3d2e1f0⟩
  c := 0
  m _ := 0
  count := 0

/-- `PUTPAD`. -/
def putpad (ctxt : Ctxt) (x : Byte) : Ctxt :=
  let ctxt := ctxt.copy (ctxt.count % 64) [x]
  if ctxt.count % 64 = 0 then sha1Step ctxt else ctxt

/-- `c.b8[7]` to `c.b8[0]`. -/
def lengthBytes (c : BitVec 64) : List Byte :=
  [7, 6, 5, 4, 3, 2, 1, 0].map fun i => c.extractLsb' (8 * i) 8

/-- What `sha1_pad` does between the first byte and the length. -/
def padZeros (ctxt : Ctxt) : Ctxt :=
  let padstart := ctxt.count % 64
  let padlen := 64 - padstart
  let ctxt :=
    if padlen < 8 then sha1Step (ctxt.copy padstart (List.replicate padlen 0)) else ctxt
  let padstart := ctxt.count % 64
  let padlen := 64 - padstart
  ctxt.copy padstart (List.replicate (padlen - 8) 0)

def sha1Pad (ctxt : Ctxt) : Ctxt :=
  let ctxt := padZeros (putpad ctxt 0x80)
  (lengthBytes ctxt.c).foldl putpad ctxt

/-- `sha1_loop`, from offset `off` of the input on. -/
def sha1Loop (ctxt : Ctxt) (input : List Byte) (off : ℕ) : Ctxt :=
  if off < input.length then
    let gapstart := ctxt.count % 64
    let gaplen := 64 - gapstart
    let copysiz := if gaplen < input.length - off then gaplen else input.length - off
    let ctxt := ctxt.copy gapstart ((input.drop off).take copysiz)
    let ctxt := { ctxt with c := ctxt.c + BitVec.ofNat 64 (copysiz * 8) }
    let ctxt := if ctxt.count % 64 = 0 then sha1Step ctxt else ctxt
    sha1Loop ctxt input (off + copysiz)
  else ctxt
termination_by input.length - off
decreasing_by
  have _ : 0 < 64 - ctxt.count % 64 := Nat.sub_pos_of_lt (Nat.mod_lt _ (by decide))
  split <;> omega

/-- The digest, most significant byte of each word first. -/
def sha1Result (ctxt : Ctxt) : List Byte :=
  let h := (sha1Pad ctxt).h
  [h.a, h.b, h.c, h.d, h.e].flatMap fun w => [3, 2, 1, 0].map fun i => w.extractLsb' (8 * i) 8

def sha1 (d : List Byte) : List Byte := sha1Result (sha1Loop sha1Init d 0)

/-! ## The rounds of a block -/

section Step

variable {W : Ring} {m : ℕ → Word} {h : Hash} {t : ℕ}

theorem S_eq {n : ℕ} (hn : n < 32) (x : Word) : S n x = x.rotateLeft n := by
  rw [BitVec.rotateLeft_def, Nat.mod_eq_of_lt hn]
  rfl

theorem F0_eq : F0 = Sha1.ch := by
  funext b c d
  refine BitVec.eq_of_getLsbD_eq fun i hi => ?_
  simp only [F0, Sha1.ch, BitVec.getLsbD_or, BitVec.getLsbD_and, BitVec.getLsbD_xor]
  rw [BitVec.getLsbD_not, decide_eq_true hi]
  cases b.getLsbD i <;> cases c.getLsbD i <;> cases d.getLsbD i <;> rfl

theorem F2_eq : F2 = Sha1.maj := by
  funext b c d
  refine BitVec.eq_of_getLsbD_eq fun i _ => ?_
  simp only [F2, Sha1.maj, BitVec.getLsbD_or, BitVec.getLsbD_and, BitVec.getLsbD_xor]
  cases b.getLsbD i <;> cases c.getLsbD i <;> cases d.getLsbD i <;> rfl

theorem K_eq (ht : t < 80) : K t = Sha1.constant t := by
  unfold K Sha1.constant
  split_ifs
  · rw [show t / 20 = 0 by omega]; rfl
  · rw [show t / 20 = 1 by omega]; rfl
  · rw [show t / 20 = 2 by omega]; rfl
  · rw [show t / 20 = 3 by omega]; rfl

theorem val_wrap (n : ℕ) : (wrap n : ℕ) = n % 16 := Nat.and_two_pow_sub_one_eq_mod n 4

theorem wrap_congr {n n' : ℕ} (h : n % 16 = n' % 16) : wrap n = wrap n' :=
  Fin.ext (by rw [val_wrap, val_wrap, h])

/-- The ring has the sixteen words of the schedule before round `t`. -/
def Window (W : Ring) (m : ℕ → Word) (t : ℕ) : Prop :=
  ∀ u, u < t → t ≤ u + 16 → W.get (wrap u) = Sha1.schedule m u

theorem Window.expand (hW : Window W m t) (ht : 16 ≤ t) : Window (expand W t) m (t + 1) := by
  intro u hu hle
  rcases Nat.lt_succ_iff_lt_or_eq.mp hu with hlt | rfl
  · have hne : (wrap t : ℕ) ≠ wrap u := by
      rw [val_wrap, val_wrap]
      omega
    rw [← hW u hlt (by omega)]
    exact Vector.getElem_set_ne (wrap t).isLt (wrap u).isLt hne
  · have hback : ∀ n j, 1 ≤ j → j ≤ 16 → n % 16 = (u - j) % 16 →
        W.get (wrap n) = Sha1.schedule m (u - j) := by
      intro n j hj hle' hn
      rw [wrap_congr hn]
      exact hW (u - j) (by omega) (by omega)
    rw [Sha1.schedule_of_le ht, ← S_eq (by decide),
      ← hback (wrap u + 13) 3 (by decide) (by decide) (by rw [val_wrap]; omega),
      ← hback (wrap u + 8) 8 (by decide) (by decide) (by rw [val_wrap]; omega),
      ← hback (wrap u + 2) 14 (by decide) (by decide) (by rw [val_wrap]; omega),
      ← hback u 16 (by decide) (by decide) (by omega)]
    exact Vector.getElem_set_self (wrap u).isLt

/-- The state of the loops before round `t`. -/
structure Loops (m : ℕ → Word) (h : Hash) (t : ℕ) (x : Ring × Hash) : Prop where
  window : Window x.1 m (max 16 t)
  rounds : x.2 = Sha1.rounds (Sha1.schedule m) h t

theorem rotate_eq {F : Word → Word → Word → Word} {v : Hash} (hW : Window W m (max 16 (t + 1)))
    (ht : t < 80) (hF : F = Sha1.function t) :
    rotate F W v t = Sha1.round (Sha1.schedule m) v t := by
  have hword : W.get (wrap t) = Sha1.schedule m t := hW t (by omega) (by omega)
  rw [rotate, Sha1.round, hF, hword, K_eq ht, S_eq (by decide), S_eq (by decide),
    BitVec.add_assoc _ (Sha1.schedule m t), BitVec.add_comm (Sha1.schedule m t), ← BitVec.add_assoc]

theorem Loops.body {F : Word → Word → Word → Word} {x : Ring × Hash} (hx : Loops m h t x)
    (hlow : 16 ≤ t) (ht : t < 80) (hF : F = Sha1.function t) :
    Loops m h (t + 1) (body F x t) := by
  have hwindow : Window (expand x.1 t) m (max 16 (t + 1)) := by
    have hW := hx.window
    rw [Nat.max_eq_right hlow] at hW
    rw [Nat.max_eq_right (by omega)]
    exact hW.expand hlow
  refine ⟨hwindow, ?_⟩
  rw [Sha1.rounds_succ, ← hx.rounds]
  exact rotate_eq hwindow ht hF

theorem Loops.firstBody {x : Ring × Hash} (hx : Loops m h t x) (ht : t < 20) :
    Loops m h (t + 1) (firstBody x t) := by
  have hF : F0 = Sha1.function t := by
    rw [F0_eq, Sha1.function, if_pos ht]
  rcases Nat.lt_or_ge t 16 with hlt | hge
  · have hwindow : Window x.1 m (max 16 (t + 1)) := by
      have hW := hx.window
      rw [Nat.max_eq_left (by omega)] at hW ⊢
      exact hW
    rw [Sha1.firstBody, if_neg (Nat.not_le.mpr hlt)]
    refine ⟨hwindow, ?_⟩
    rw [Sha1.rounds_succ, ← hx.rounds]
    exact rotate_eq hwindow (by omega) hF
  · rw [Sha1.firstBody, if_pos hge]
    exact hx.body hge (by omega) hF

/-- A loop whose body goes on by one round goes on by twenty. -/
theorem Loops.loop20 {body : Ring × Hash → ℕ → Ring × Hash} {start : ℕ} {x : Ring × Hash}
    (hbody : ∀ t x, start ≤ t → t < start + 20 → Loops m h t x → Loops m h (t + 1) (body x t))
    (hx : Loops m h start x) : Loops m h (start + 20) (loop20 body start x) := by
  have hrun : ∀ n ≤ 20, Loops m h (start + n) ((List.range' start n).foldl body x) := by
    intro n hn
    induction n with
    | zero => exact hx
    | succ n ih =>
      rw [List.range'_1_concat, List.foldl_append, List.foldl_cons, List.foldl_nil]
      exact hbody (start + n) _ (by omega) (by omega) (ih (by omega))
  exact hrun 20 (Nat.le_refl 20)

/-- The words of a block, each put in the order of the host. -/
theorem Window.ofBlock {mem : Memory} {block : List Byte} (hblock : mem.Starts block)
    (hlen : block.length = 64) : Window (b32 (swap mem)) (Sha1.word block) 16 := by
  intro u hu _
  have hbyte : ∀ j < 4, swap mem (4 * u + j) = block.getD (4 * u + (3 - j)) 0 := by
    intro j hj
    have hswap : swap mem (4 * u + j) = mem (4 * u + (3 - j)) := by
      rw [swap]
      congr 1
      omega
    rw [hswap, Memory.starts_iff.mp hblock _ (by omega), List.getD_eq_getElem?_getD,
      List.getElem?_eq_getElem (by omega), Option.getD_some]
  have hwrap : (wrap u : ℕ) = u := (val_wrap u).trans (Nat.mod_eq_of_lt hu)
  have hlow : swap mem (4 * u) = block.getD (4 * u + 3) 0 := hbyte 0 (by decide)
  rw [Sha1.schedule_of_lt hu, Sha1.word]
  refine (Vector.getElem_ofFn (wrap u).isLt).trans ?_
  rw [Fin.val_mk, hwrap, hbyte 3 (by decide), hbyte 2 (by decide), hbyte 1 (by decide), hlow]
  rfl

/-- A full block is folded in. -/
theorem sha1Step_h {ctxt : Ctxt} {block : List Byte} (hblock : ctxt.m.Starts block)
    (hlen : block.length = 64) : (sha1Step ctxt).h = Sha1.compress ctxt.h block := by
  have hzero : Loops (Sha1.word block) ctxt.h 0 (b32 (swap ctxt.m), ctxt.h) :=
    ⟨Window.ofBlock hblock hlen, rfl⟩
  have hfirst := Loops.loop20 (fun t x _ ht hx => Loops.firstBody hx (by omega)) hzero
  have hsecond := @Loops.loop20 _ _ (body F1) _ _
    (fun t x hle ht hx => hx.body (by omega) (by omega) (by
      rw [Sha1.function, if_neg (by omega), if_pos ht]; rfl)) hfirst
  have hthird := @Loops.loop20 _ _ (body F2) _ _
    (fun t x hle ht hx => hx.body (by omega) (by omega) (by
      rw [Sha1.function, if_neg (by omega), if_neg (by omega), if_pos ht, F2_eq])) hsecond
  have hfourth := @Loops.loop20 _ _ (body F3) _ _
    (fun t x hle ht hx => hx.body (by omega) (by omega) (by
      rw [Sha1.function, if_neg (by omega), if_neg (by omega), if_neg (by omega)]; rfl)) hthird
  have hv : (loop20 (body F3) 60 (loop20 (body F2) 40 (loop20 (body F1) 20
      (loop20 firstBody 0 (b32 (swap ctxt.m), ctxt.h))))).2 =
        Sha1.rounds (Sha1.schedule (Sha1.word block)) ctxt.h 80 := hfourth.rounds
  rw [Sha1.compress, ← hv]
  rfl

end Step

/-! ## Messages in pieces -/

section Feed

/-- A context is in the state of the machine that has been fed some bytes. -/
structure Holds (ctxt : Ctxt) (s : Hash × List Byte) : Prop where
  h : ctxt.h = s.1
  count : ctxt.count = s.2.length
  lt : s.2.length < 64
  block : ctxt.m.Starts s.2

variable {ctxt : Ctxt} {s : Hash × List Byte} {bytes : List Byte}

abbrev feed : Hash × List Byte → List Byte → Hash × List Byte := Blocks.feed 64 Sha1.compress

theorem feed_feed (s : Hash × List Byte) (piece piece' : List Byte) :
    feed (feed s piece) piece' = feed s (piece ++ piece') := (Blocks.feed_append s piece piece').symm

theorem addCount_of_lt {count n : ℕ} (h : count + n < 64) : addCount count n = count + n := by
  rw [addCount]
  omega

theorem Holds.start (h : Holds ctxt s) : ctxt.count % 64 = s.2.length := by
  rw [h.count, Nat.mod_eq_of_lt h.lt]

theorem Holds.copy_block (h : Holds ctxt s) (bytes : List Byte) :
    (ctxt.copy (ctxt.count % 64) bytes).m.Starts (s.2 ++ bytes) := by
  rw [Ctxt.copy, h.start]
  exact Memory.writeAt_starts h.block bytes

theorem Holds.copy_within (h : Holds ctxt s) (hlt : s.2.length + bytes.length < 64) :
    Holds (ctxt.copy (ctxt.count % 64) bytes) (feed s bytes) ∧
      (ctxt.copy (ctxt.count % 64) bytes).count = s.2.length + bytes.length := by
  have hcount : (ctxt.copy (ctxt.count % 64) bytes).count = s.2.length + bytes.length := by
    rw [Ctxt.copy, h.count, addCount_of_lt hlt]
  have hfeed : feed s bytes = (s.1, s.2 ++ bytes) := Blocks.feed_within hlt
  refine ⟨?_, hcount⟩
  rw [hfeed]
  refine ⟨h.h, ?_, ?_, h.copy_block bytes⟩
  · rw [hcount, List.length_append]
  · rwa [List.length_append]

theorem Holds.copy_full (h : Holds ctxt s) (hne : bytes ≠ []) (hlen : s.2.length + bytes.length = 64) :
    Holds (sha1Step (ctxt.copy (ctxt.count % 64) bytes)) (feed s bytes) ∧
      (ctxt.copy (ctxt.count % 64) bytes).count = 0 := by
  have hcount : (ctxt.copy (ctxt.count % 64) bytes).count = 0 := by
    rw [Ctxt.copy, h.count, addCount, hlen]
    rfl
  have hfeed : feed s bytes = (Sha1.compress s.1 (s.2 ++ bytes), []) := Blocks.feed_full hne hlen
  refine ⟨?_, hcount⟩
  rw [hfeed]
  refine ⟨?_, hcount, Nat.zero_lt_succ 63, Memory.Starts.nil _⟩
  rw [sha1Step_h (h.copy_block bytes) (by rw [List.length_append, hlen]), ← h.h]
  rfl

theorem Holds.setC (h : Holds ctxt s) (c : BitVec 64) : Holds { ctxt with c := c } s :=
  ⟨h.h, h.count, h.lt, h.block⟩

/-- Bytes that go at most to the end of the block, and the step when it is full. -/
theorem Holds.copy (h : Holds ctxt s) (hne : bytes ≠ []) (hle : s.2.length + bytes.length ≤ 64) :
    Holds (if (ctxt.copy (ctxt.count % 64) bytes).count % 64 = 0 then
      sha1Step (ctxt.copy (ctxt.count % 64) bytes) else ctxt.copy (ctxt.count % 64) bytes)
      (feed s bytes) := by
  have hpos := List.length_pos_iff.mpr hne
  rcases Nat.lt_or_eq_of_le hle with hlt | hlen
  · obtain ⟨hholds, hcount⟩ := h.copy_within hlt
    rwa [if_neg (by rw [hcount]; omega)]
  · obtain ⟨hholds, hcount⟩ := h.copy_full hne hlen
    rwa [if_pos (by rw [hcount])]

theorem Holds.putpad (h : Holds ctxt s) (x : Byte) : Holds (putpad ctxt x) (feed s [x]) :=
  h.copy (List.cons_ne_nil x []) h.lt

theorem Holds.foldl_putpad (h : Holds ctxt s) (bytes : List Byte) :
    Holds (bytes.foldl Sha1.putpad ctxt) (feed s bytes) := by
  induction bytes generalizing ctxt s with
  | nil => exact h
  | cons x bytes ih => exact ih (h.putpad x)

theorem c_step (ctxt : Ctxt) : (sha1Step ctxt).c = ctxt.c := by
  rw [sha1Step]

theorem c_copy (ctxt : Ctxt) (start : ℕ) (bytes : List Byte) :
    (ctxt.copy start bytes).c = ctxt.c := rfl

theorem c_putpad (ctxt : Ctxt) (x : Byte) : (putpad ctxt x).c = ctxt.c := by
  unfold putpad
  dsimp only
  split
  · exact c_step _
  · rfl

/-- `sha1_loop` feeds the rest of the input, and counts its bits. -/
theorem Holds.sha1Loop (h : Holds ctxt s) (input : List Byte) (off : ℕ) :
    Holds (sha1Loop ctxt input off) (feed s (input.drop off)) ∧
      (Sha1.sha1Loop ctxt input off).c = ctxt.c + BitVec.ofNat 64 (8 * (input.length - off)) := by
  generalize hn : input.length - off = n
  induction n using Nat.strong_induction_on generalizing ctxt s off with
  | _ n ih =>
  rcases Nat.lt_or_ge off input.length with hlt | hle
  · set gaplen := 64 - ctxt.count % 64 with hgaplen
    set copysiz := if gaplen < input.length - off then gaplen else input.length - off with hcopysiz
    have hgap : gaplen = 64 - s.2.length := by rw [hgaplen, h.start]
    have hs := h.lt
    have hsize : 0 < copysiz ∧ copysiz ≤ gaplen ∧ copysiz ≤ input.length - off := by
      rw [hcopysiz]
      split <;> omega
    have hpiece : ((input.drop off).take copysiz).length = copysiz := by
      rw [List.length_take, List.length_drop, Nat.min_eq_left hsize.2.2]
    have hne : (input.drop off).take copysiz ≠ [] := by
      rw [← List.length_pos_iff, hpiece]
      exact hsize.1
    have hholds := (h.setC (ctxt.c + BitVec.ofNat 64 (copysiz * 8))).copy hne (by rw [hpiece]; omega)
    obtain ⟨hloop, hc⟩ := ih (n - copysiz) (by omega) hholds (off + copysiz) (by omega)
    rw [Sha1.sha1Loop, if_pos hlt]
    refine ⟨?_, ?_⟩
    · rw [feed_feed, ← List.drop_drop, List.take_append_drop] at hloop
      exact hloop
    · refine hc.trans ?_
      have hkeep : ∀ x : Ctxt, (if x.count % 64 = 0 then sha1Step x else x).c = x.c := by
        intro x
        split
        · exact c_step x
        · rfl
      rw [hkeep]
      show ctxt.c + BitVec.ofNat 64 (copysiz * 8) + _ = _
      rw [BitVec.add_assoc, ← BitVec.ofNat_add]
      congr 2
      omega
  · rw [Sha1.sha1Loop, if_neg (Nat.not_lt.mpr hle), List.drop_of_length_le hle]
    obtain rfl : n = 0 := by omega
    exact ⟨h, (BitVec.add_zero _).symm⟩

theorem Holds.init : Holds sha1Init (Sha1.initial, []) :=
  ⟨rfl, rfl, by decide, Memory.Starts.nil _⟩

theorem lengthBytes_eq (v : ℕ) : lengthBytes (BitVec.ofNat 64 v) = Sha1.beBytes 8 v := by
  simp only [lengthBytes, List.map_cons, List.map_nil]
  rw [Sha1.extractLsb'_ofNat 64 7 v (by decide), Sha1.extractLsb'_ofNat 64 6 v (by decide),
    Sha1.extractLsb'_ofNat 64 5 v (by decide), Sha1.extractLsb'_ofNat 64 4 v (by decide),
    Sha1.extractLsb'_ofNat 64 3 v (by decide), Sha1.extractLsb'_ofNat 64 2 v (by decide),
    Sha1.extractLsb'_ofNat 64 1 v (by decide), Sha1.extractLsb'_ofNat 64 0 v (by decide)]
  rfl

/-- Zeros up to the length, when there is room for it in the block. -/
theorem Holds.zeros (h : Holds ctxt s) (hroom : s.2.length ≤ 56) :
    Holds (ctxt.copy (ctxt.count % 64) (List.replicate (64 - ctxt.count % 64 - 8) 0))
      (feed s (List.replicate (56 - s.2.length) 0)) := by
  have hlen : 64 - ctxt.count % 64 - 8 = 56 - s.2.length := by
    rw [h.start]
    omega
  rw [hlen]
  exact (h.copy_within (by rw [List.length_replicate]; omega)).1

/-- The zeros of the padding, which may need a block of their own. -/
theorem Holds.padZeros (h : Holds ctxt s) :
    Holds (padZeros ctxt) (feed s (List.replicate ((120 - s.2.length) % 64) 0)) ∧
      (Sha1.padZeros ctxt).c = ctxt.c := by
  have hlt := h.lt
  have hstart := h.start
  rw [Sha1.padZeros]
  rcases Nat.lt_or_ge 56 s.2.length with hfull | hroom
  · have hgap : 64 - ctxt.count % 64 = 64 - s.2.length := by rw [hstart]
    obtain ⟨hholds, -⟩ := @Holds.copy_full ctxt s (List.replicate (64 - s.2.length) 0) h
      (by rw [← List.length_pos_iff, List.length_replicate]; omega)
      (by rw [List.length_replicate]; omega)
    have hnil : (feed s (List.replicate (64 - s.2.length) 0)).2.length = 0 := by
      refine (Blocks.length_feed hlt).trans ?_
      rw [List.length_replicate, Nat.add_sub_cancel' hlt.le]
    have hzeros := hholds.zeros (by rw [hnil]; decide)
    rw [hnil, feed_feed, ← List.replicate_add] at hzeros
    rw [hgap, if_pos (by omega), show (120 - s.2.length) % 64 = 64 - s.2.length + (56 - 0) by omega]
    refine ⟨hzeros, ?_⟩
    rw [c_copy, c_step, c_copy]
  · rw [if_neg (by omega), show (120 - s.2.length) % 64 = 56 - s.2.length by omega]
    exact ⟨h.zeros hroom, rfl⟩

/-- The padding is that of the standard. -/
theorem Holds.sha1Pad {message : List Byte} (h : Holds ctxt (feed (Sha1.initial, []) message))
    (hc : ctxt.c = BitVec.ofNat 64 (8 * message.length)) :
    (sha1Pad ctxt).h = Sha1.hash message := by
  have hmarked := h.putpad 0x80
  rw [feed_feed] at hmarked
  have hlen : (feed (Sha1.initial, []) (message ++ [0x80])).2.length = (message.length + 1) % 64 := by
    refine (Blocks.length_feed (by decide)).trans ?_
    rw [List.length_nil, Nat.zero_add, List.length_append, List.length_singleton]
  obtain ⟨hzeros, hkept⟩ := hmarked.padZeros
  have hpad := hzeros.foldl_putpad (lengthBytes ctxt.c)
  have hcount : (120 - (message.length + 1) % 64) % 64 = Sha1.zeros message.length := by
    rw [Sha1.zeros]
    omega
  rw [feed_feed, feed_feed, hlen, hcount, hc, lengthBytes_eq] at hpad
  have hmessage : message ++ [0x80] ++ (List.replicate (Sha1.zeros message.length) 0 ++
      Sha1.beBytes 8 (8 * message.length)) = Sha1.pad message := by
    rw [List.append_assoc, Sha1.pad, Sha1.padding, List.cons_append]
    rfl
  rw [hmessage] at hpad
  have hh := hpad.h
  rw [show feed (Sha1.initial, []) (Sha1.pad message) = (Sha1.hash message, []) from
    Sha1.feed_pad message] at hh
  rw [Sha1.sha1Pad, hkept, c_putpad, hc, lengthBytes_eq]
  exact hh

/-- The bytes of a word, the most significant first. -/
theorem wordBytes_eq (w : Word) :
    [3, 2, 1, 0].map (fun i => w.extractLsb' (8 * i) 8) = Sha1.beBytes 4 w.toNat := by
  have hbyte : ∀ i ≤ 3, w.extractLsb' (8 * i) 8 = BitVec.ofNat 8 (w.toNat / 256 ^ i) := by
    intro i hi
    rw [← Sha1.extractLsb'_ofNat 32 i w.toNat (by omega), BitVec.ofNat_toNat, BitVec.setWidth_eq]
  simp only [List.map_cons, List.map_nil]
  rw [hbyte 3 (by decide), hbyte 2 (by decide), hbyte 1 (by decide), hbyte 0 (by decide)]
  rfl

theorem Holds.sha1Result {message : List Byte}
    (h : Holds ctxt (feed (Sha1.initial, []) message))
    (hc : ctxt.c = BitVec.ofNat 64 (8 * message.length)) :
    sha1Result ctxt = Sha1.digest message := by
  rw [Sha1.sha1Result, h.sha1Pad hc, Sha1.digest, Sha1.Hash.bytes, funext wordBytes_eq]

/-- `SHA1` returns the digest of the standard for every message. -/
theorem sha1_eq (d : List Byte) : sha1 d = Sha1.digest d := by
  obtain ⟨hloop, hc⟩ := Holds.init.sha1Loop d 0
  exact hloop.sha1Result (hc.trans (BitVec.zero_add _))

/-- Pieces of a message are fed like the message. -/
theorem Holds.foldl_sha1Loop {message : List Byte}
    (h : Holds ctxt (feed (Sha1.initial, []) message))
    (hc : ctxt.c = BitVec.ofNat 64 (8 * message.length)) (pieces : List (List Byte)) :
    Holds (pieces.foldl (fun ctxt piece => Sha1.sha1Loop ctxt piece 0) ctxt)
        (feed (Sha1.initial, []) (message ++ pieces.flatten)) ∧
      (pieces.foldl (fun ctxt piece => Sha1.sha1Loop ctxt piece 0) ctxt).c =
        BitVec.ofNat 64 (8 * (message ++ pieces.flatten).length) := by
  induction pieces generalizing ctxt message with
  | nil => simpa using ⟨h, hc⟩
  | cons piece pieces ih =>
    obtain ⟨hloop, hcount⟩ := h.sha1Loop piece 0
    rw [feed_feed] at hloop
    have hbits : (Sha1.sha1Loop ctxt piece 0).c = BitVec.ofNat 64 (8 * (message ++ piece).length) := by
      rw [hcount, hc, ← BitVec.ofNat_add, List.length_append, Nat.mul_add]
      rfl
    rw [List.foldl_cons, List.flatten_cons, ← List.append_assoc]
    exact ih hloop hbits

/-- A message that comes in any pieces has the digest of the standard. -/
theorem pieces_digest (pieces : List (List Byte)) :
    sha1Result (pieces.foldl (fun ctxt piece => sha1Loop ctxt piece 0) sha1Init) =
      Sha1.digest pieces.flatten := by
  have hinit : Holds sha1Init (feed (Sha1.initial, []) []) := Holds.init
  obtain ⟨hfold, hc⟩ := hinit.foldl_sha1Loop rfl pieces
  exact hfold.sha1Result hc

theorem length_sha1 (d : List Byte) : (sha1 d).length = 20 := rfl

/-- What `SHA1(d, n, md)` leaves in `md`. -/
def md (d : List Byte) : Fin 20 → Byte := fun i => (sha1 d).get (i.cast (length_sha1 d).symm)

theorem ofFn_md (d : List Byte) : List.ofFn (md d) = Sha1.digest d := by
  rw [← sha1_eq]
  refine List.ext_getElem (by rw [List.length_ofFn, length_sha1]) fun i _ _ => ?_
  rw [List.getElem_ofFn]
  rfl

end Feed

end Koheron.Sha1
