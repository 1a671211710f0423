-- SUMMARY: Folding a function over the blocks of a message, and the machine that is fed the message in pieces of any size.
import Mathlib.Data.List.Range

/-!
# Blocks

A message whose length is a multiple of the block length is folded block by
block. A machine that keeps the beginning of a block, and applies the function
when the block is full, reaches the same value whatever pieces the message comes
in.
-/

namespace Blocks

universe u v

variable {σ : Type u} {α : Type v} (n : ℕ) (f : σ → List α → σ)

/-- The value after the blocks of a message of `k` blocks. -/
def fold (s : σ) (message : List α) (k : ℕ) : σ :=
  (List.range k).foldl (fun s i => f s ((message.drop (n * i)).take n)) s

/-- One more element of the message. -/
def push : σ × List α → α → σ × List α
  | (s, block), x =>
    if (block ++ [x]).length = n then (f s (block ++ [x]), []) else (s, block ++ [x])

def feed (s : σ × List α) (piece : List α) : σ × List α := piece.foldl (push n f) s

variable {n f} {s : σ} {block piece : List α}

theorem feed_append (s : σ × List α) (piece piece' : List α) :
    feed n f s (piece ++ piece') = feed n f (feed n f s piece) piece' := List.foldl_append

/-- A piece that does not fill the block is kept. -/
theorem feed_within (h : block.length + piece.length < n) :
    feed n f (s, block) piece = (s, block ++ piece) := by
  induction piece generalizing block with
  | nil => rw [List.append_nil]; rfl
  | cons x piece ih =>
    rw [List.length_cons] at h
    have hpush : push n f (s, block) x = (s, block ++ [x]) := by
      refine if_neg ?_
      rw [List.length_append, List.length_singleton]
      omega
    have hlen : (block ++ [x]).length + piece.length < n := by
      rw [List.length_append, List.length_singleton]
      omega
    show feed n f (push n f (s, block) x) piece = _
    rw [hpush, ih hlen, List.append_assoc, List.singleton_append]

/-- A piece that fills the block is folded in. -/
theorem feed_full (hpiece : piece ≠ []) (h : block.length + piece.length = n) :
    feed n f (s, block) piece = (f s (block ++ piece), []) := by
  obtain ⟨front, x, rfl⟩ := (List.eq_nil_or_concat' piece).resolve_left hpiece
  rw [List.length_append, List.length_singleton] at h
  have hfull : (block ++ front ++ [x]).length = n := by
    rw [List.length_append, List.length_append, List.length_singleton]
    omega
  have hwithin : feed n f (s, block) front = (s, block ++ front) := feed_within (by omega)
  rw [feed_append, hwithin, ← List.append_assoc]
  exact if_pos hfull

theorem length_feed (hblock : block.length < n) :
    (feed n f (s, block) piece).2.length = (block.length + piece.length) % n := by
  induction piece generalizing s block with
  | nil => exact (Nat.mod_eq_of_lt hblock).symm
  | cons x piece ih =>
    show (feed n f (push n f (s, block) x) piece).2.length = _
    have hlen : (block ++ [x]).length = block.length + 1 := List.length_append
    rw [push, List.length_cons, Nat.add_comm piece.length 1, ← Nat.add_assoc, ← hlen]
    split
    · next hfull =>
      have hnil : ([] : List α).length < n := Nat.zero_lt_of_lt hblock
      rw [ih hnil, hfull, List.length_nil, Nat.zero_add, Nat.add_mod_left]
    · next hfull => exact ih (by omega)

/-- The machine folds over the blocks of the message. -/
theorem feed_eq_fold (hn : 0 < n) {k : ℕ} {message : List α} (h : message.length = n * k) :
    feed n f (s, []) message = (fold n f s message k, []) := by
  induction k generalizing s message with
  | zero =>
    obtain rfl := List.length_eq_zero_iff.mp h
    rfl
  | succ k ih =>
    have hle : n ≤ message.length := by
      rw [h]
      exact Nat.le_mul_of_pos_right n (Nat.succ_pos k)
    have htake : (message.take n).length = n := List.length_take_of_le hle
    have hfirst : feed n f (s, []) (message.take n) = (f s (message.take n), []) := by
      refine feed_full ?_ (by rw [htake, List.length_nil, Nat.zero_add])
      rw [← List.length_pos_iff, htake]
      exact hn
    have hrest : (message.drop n).length = n * k := by
      rw [List.length_drop, h, Nat.mul_succ, Nat.add_sub_cancel]
    have hfold : fold n f s message (k + 1) = fold n f (f s (message.take n)) (message.drop n) k := by
      unfold fold
      rw [List.range_succ_eq_map, List.foldl_cons, List.foldl_map, Nat.mul_zero, List.drop_zero]
      simp only [List.drop_drop, Nat.mul_succ, Nat.add_comm]
    rw [hfold, ← ih hrest, ← hfirst, ← feed_append, List.take_append_drop]

end Blocks
