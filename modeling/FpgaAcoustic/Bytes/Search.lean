-- SUMMARY: The first occurrence of a pattern in a text.
import Mathlib.Data.List.Infix

/-!
# Searching

`find` gives the position of the first occurrence of a pattern in a text.
-/

namespace Bytes

variable {α : Type} [DecidableEq α]

/-- The position of the first occurrence of `pat`. -/
def find (pat : List α) : List α → Option ℕ
  | [] => if pat = [] then some 0 else none
  | a :: text => if pat <+: a :: text then some 0 else (find pat text).map (· + 1)

variable {pat text : List α}

theorem find_cons_of_not (a : α) (h : ¬ pat <+: a :: text) :
    find pat (a :: text) = (find pat text).map (· + 1) := by
  rw [find, if_neg h]

/-- What is found is an occurrence. -/
theorem exists_of_find {n : ℕ} (h : find pat text = some n) :
    ∃ before after, text = before ++ (pat ++ after) ∧ before.length = n := by
  induction text generalizing n with
  | nil =>
    rw [find] at h
    split at h
    · rename_i hpat
      exact ⟨[], [], by rw [hpat]; rfl, Option.some.inj h⟩
    · exact absurd h (by simp)
  | cons a text ih =>
    by_cases hpre : pat <+: a :: text
    · rw [find, if_pos hpre] at h
      obtain ⟨after, hafter⟩ := hpre
      exact ⟨[], after, hafter.symm, Option.some.inj h⟩
    · rw [find_cons_of_not a hpre, Option.map_eq_some_iff] at h
      obtain ⟨m, hm, rfl⟩ := h
      obtain ⟨before, after, rfl, rfl⟩ := ih hm
      exact ⟨a :: before, after, rfl, rfl⟩

/-- An occurrence is found, if not an earlier one. -/
theorem find_ne_none (before after : List α) : find pat (before ++ (pat ++ after)) ≠ none := by
  induction before with
  | nil =>
    rw [List.nil_append]
    cases hcase : pat ++ after with
    | nil =>
      rw [find, if_pos (List.append_eq_nil_iff.mp hcase).1]
      exact Option.some_ne_none 0
    | cons a text =>
      rw [find, if_pos (hcase ▸ List.prefix_append pat after)]
      exact Option.some_ne_none 0
  | cons a before ih =>
    rw [List.cons_append, find]
    split
    · exact Option.some_ne_none 0
    · rwa [ne_eq, Option.map_eq_none_iff]

end Bytes
