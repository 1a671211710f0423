-- SUMMARY: Pools of ids: the ids in use, and those that have been given back and are given out again before a new one is.
import Mathlib.Data.Finset.Card
import Mathlib.Data.Finset.Range

/-!
# Pools of ids

Ids are named by the natural numbers. An id that has been given back is given
out again. Only when there is none, the next name is taken, which is found by
counting the ids in use.
-/

namespace Alloc

/-- The ids in use and the ids to be used again, which together are the first
names. -/
structure IdPool {ι : Type} [DecidableEq ι] (name : ℕ ↪ ι) where
  used : Finset ι
  free : List ι
  nodup : free.Nodup
  disjoint : ∀ id ∈ free, id ∉ used
  cover : ∃ k, ∀ id, id ∈ used ∨ id ∈ free ↔ ∃ i < k, name i = id

namespace IdPool

variable {ι : Type} [DecidableEq ι] {name : ℕ ↪ ι}

def empty : IdPool name where
  used := ∅
  free := []
  nodup := List.nodup_nil
  disjoint _ h := absurd h List.not_mem_nil
  cover := ⟨0, by simp⟩

variable (p : IdPool name)

/-- The number of names that have been taken. -/
def size : ℕ := p.used.card + p.free.length

/-- No name has been skipped. -/
theorem mem_iff (id : ι) : id ∈ p.used ∨ id ∈ p.free ↔ ∃ i < p.size, name i = id := by
  obtain ⟨k, hk⟩ := p.cover
  have hunion : p.used ∪ p.free.toFinset = (Finset.range k).map name := by
    ext id
    simp [hk id]
  have hdisjoint : Disjoint p.used p.free.toFinset := by
    rw [Finset.disjoint_right]
    intro id hid
    exact p.disjoint id (List.mem_toFinset.mp hid)
  have hsize : p.size = k := by
    have hcard := congrArg Finset.card hunion
    rwa [Finset.card_union_of_disjoint hdisjoint, List.toFinset_card_of_nodup p.nodup,
      Finset.card_map, Finset.card_range] at hcard
  rw [hsize]
  exact hk id

/-- If no id is free, the number of ids in use is not the name of one. -/
theorem name_card_notMem (h : p.free = []) : name p.used.card ∉ p.used := by
  intro hmem
  obtain ⟨i, hi, hname⟩ := (p.mem_iff _).mp (.inl hmem)
  rw [size, h, List.length_nil, Nat.add_zero, name.injective hname] at hi
  exact lt_irrefl _ hi

/-- The id that is given out next. -/
def next : ι :=
  match p.free with
  | [] => name p.used.card
  | id :: _ => id

theorem next_notMem : p.next ∉ p.used := by
  unfold next
  split
  · exact p.name_card_notMem ‹_›
  · rename_i id free h
    exact p.disjoint id (h ▸ List.mem_cons_self ..)

theorem next_notMem_tail : p.next ∉ p.free.tail := by
  unfold next
  split
  · rename_i h
    rw [h]
    exact List.not_mem_nil
  · rename_i id free h
    have hnodup := p.nodup
    rw [h] at hnodup ⊢
    exact (List.nodup_cons.mp hnodup).1

/-- Using the next id uses no other. -/
theorem mem_insert_next (id : ι) :
    (id ∈ insert p.next p.used ∨ id ∈ p.free.tail) ↔
      id = p.next ∨ id ∈ p.used ∨ id ∈ p.free := by
  rw [Finset.mem_insert, or_assoc]
  unfold next
  split
  · rename_i h
    rw [h, List.tail_nil]
  · rename_i next free h
    rw [h, List.tail_cons, List.mem_cons]
    constructor
    · rintro (hid | hid | hid)
      · exact .inl hid
      · exact .inr (.inl hid)
      · exact .inr (.inr (.inr hid))
    · rintro (hid | hid | hid | hid)
      · exact .inl hid
      · exact .inr (.inl hid)
      · exact .inl hid
      · exact .inr (.inr hid)

/-- The pool in which the next id is in use. -/
def alloc : IdPool name where
  used := insert p.next p.used
  free := p.free.tail
  nodup := p.nodup.sublist (List.tail_sublist _)
  disjoint id hid hmem := by
    rcases Finset.mem_insert.mp hmem with rfl | hused
    · exact p.next_notMem_tail hid
    · exact p.disjoint id (List.mem_of_mem_tail hid) hused
  cover := by
    rcases hfree : p.free with _ | ⟨next, free⟩
    · refine ⟨p.size + 1, fun id => ?_⟩
      have hnext : p.next = name p.size := by
        simp [next, size, hfree]
      rw [← hfree, p.mem_insert_next, p.mem_iff, hnext]
      constructor
      · rintro (rfl | ⟨i, hi, rfl⟩)
        · exact ⟨p.size, Nat.lt_succ_self _, rfl⟩
        · exact ⟨i, Nat.lt_succ_of_lt hi, rfl⟩
      · rintro ⟨i, hi, rfl⟩
        rcases Nat.lt_succ_iff_lt_or_eq.mp hi with hlt | rfl
        · exact .inr ⟨i, hlt, rfl⟩
        · exact .inl rfl
    · refine ⟨p.size, fun id => ?_⟩
      have hnext : p.next ∈ p.free := by
        simp [IdPool.next, hfree]
      rw [← hfree, p.mem_insert_next, p.mem_iff]
      constructor
      · rintro (rfl | hid)
        · exact (p.mem_iff _).mp (.inr hnext)
        · exact hid
      · exact .inr

/-- The pool in which an id has been given back. -/
def release (id : ι) (h : id ∈ p.used) : IdPool name where
  used := p.used.erase id
  free := id :: p.free
  nodup := List.nodup_cons.mpr ⟨fun hfree => p.disjoint id hfree h, p.nodup⟩
  disjoint other hother hmem := by
    rcases List.mem_cons.mp hother with rfl | hfree
    · exact Finset.notMem_erase _ _ hmem
    · exact p.disjoint other hfree (Finset.mem_of_mem_erase hmem)
  cover := by
    refine ⟨p.size, fun other => ?_⟩
    rw [← p.mem_iff, Finset.mem_erase, List.mem_cons]
    rcases eq_or_ne other id with rfl | hne
    · simp [h]
    · simp [hne]

end IdPool

end Alloc
