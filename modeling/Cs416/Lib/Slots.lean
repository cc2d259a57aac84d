import Mathlib.Tactic
import Mathlib.Data.Multiset.Range

/-!
# The elements of an array as a multiset

`slots a n` is the multiset of the first `n` slots of the array `a`. A program that moves
elements around inside an array is followed by one rule, `slots_update`: a store into a slot
exchanges the element stored for the one that was there.
-/

namespace Slots

open Function

variable {α : Type*}

/-- The multiset of the first `n` slots. -/
def slots (a : ℕ → α) (n : ℕ) : Multiset α := (Multiset.range n).map a

variable {a : ℕ → α} {n i j : ℕ} {v : α}

@[simp] theorem slots_zero (a : ℕ → α) : slots a 0 = 0 := rfl

theorem slots_succ (a : ℕ → α) (n : ℕ) : slots a (n + 1) = slots a n + {a n} := by
  rw [slots, Multiset.range_succ, Multiset.map_cons, ← Multiset.singleton_add, add_comm]
  rfl

theorem mem_slots (h : i < n) : a i ∈ slots a n :=
  Multiset.mem_map_of_mem a (Multiset.mem_range.mpr h)

theorem exists_of_mem_slots (h : v ∈ slots a n) : ∃ i < n, a i = v := by
  obtain ⟨i, hi, rfl⟩ := Multiset.mem_map.mp h
  exact ⟨i, Multiset.mem_range.mp hi, rfl⟩

/-- A store behind the first `n` slots does not show. -/
theorem slots_update_of_le (h : n ≤ i) : slots (update a i v) n = slots a n := by
  refine Multiset.map_congr rfl fun k hk => update_of_ne ?_ _ _
  have := Multiset.mem_range.mp hk
  omega

/-- A store exchanges elements. -/
theorem slots_update (h : i < n) : slots (update a i v) n + {a i} = slots a n + {v} := by
  induction n with
  | zero => exact absurd h (by omega)
  | succ n ih =>
    rw [slots_succ, slots_succ]
    by_cases hi : i = n
    · subst hi
      rw [slots_update_of_le (Nat.le_refl _), update_self, add_right_comm]
    · rw [update_of_ne (by omega : n ≠ i), add_right_comm, ih (by omega), add_right_comm]

/-- One of the elements, and the rest. -/
theorem slots_extract (h : i < n) : ∃ rest, slots a n = rest + {a i} := by
  obtain ⟨rest, hrest⟩ := Multiset.exists_cons_of_mem (mem_slots (a := a) h)
  exact ⟨rest, by rw [hrest, ← Multiset.singleton_add, add_comm]⟩

/-- An exchange of two slots changes nothing. -/
theorem slots_swap (hi : i < n) (hj : j < n) :
    slots (update (update a i (a j)) j (a i)) n = slots a n := by
  by_cases hij : i = j
  · subst hij
    rw [update_idem, update_eq_self]
  have h1 := slots_update (a := update a i (a j)) (v := a i) hj
  rw [update_of_ne (Ne.symm hij), slots_update hi] at h1
  exact add_right_cancel h1

end Slots
