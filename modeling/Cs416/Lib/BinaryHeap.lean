import Mathlib.Tactic

/-!
# The order of a binary heap

A heap of `n` elements lies in the first `n` slots of an array; `k i` is the key in slot `i`.
A program that restores the order after a change at the end exchanges an element with its parent
as long as it is smaller; one that restores it after a change at the root exchanges it with its
smaller child. `UpOrder` and `DownOrder` say where the order may be broken in between.

The rules are `UpOrder.swap` and `UpOrder.order` for the one, `DownOrder.swap` and
`DownOrder.order` for the other, and `HeapOrder.root_le` says what the order is for.

A comparator need not be linear for that: `exists_key` turns a strict weak order into a
comparison of keys.
-/

open Function

universe u

namespace BinaryHeap

/-! ### Strict weak orders -/

/-- The preorder of a strict weak order: an element is at most another one if the other is not
less than it. -/
abbrev weakPreorder {α : Type*} (r : α → α → Prop) [IsStrictWeakOrder α r] : Preorder α where
  le a b := ¬ r b a
  lt := r
  le_refl a := irrefl_of r a
  le_trans a b c hab hbc hca := by
    -- `c` is less than `a`, so it is neither less than `b` nor incomparable to it
    by_cases hcb : r b c
    · exact hab (trans_of r hcb hca)
    · by_cases hba : r a b
      · exact hbc (trans_of r hca hba)
      · exact (IsStrictWeakOrder.incomp_trans c b a ⟨hbc, hcb⟩ ⟨hab, hba⟩).1 hca
  lt_iff_le_not_ge a b :=
    ⟨fun h => ⟨asymm_of r h, fun hn => hn h⟩, fun h => not_not.mp h.2⟩

/-- **A strict weak order compares keys** of some linear order. -/
theorem exists_key {α : Type u} (r : α → α → Prop) [IsStrictWeakOrder α r] :
    ∃ (κ : Type u) (_ : LinearOrder κ) (key : α → κ), ∀ a b, r a b ↔ key a < key b := by
  classical
  let _ := weakPreorder r
  have : @Std.Total α (· ≤ ·) := ⟨fun a b => by
    by_cases h : r b a
    · exact .inr (asymm_of r h)
    · exact .inl h⟩
  exact ⟨Antisymmetrization α (· ≤ ·), inferInstance, toAntisymmetrization (· ≤ ·),
    fun a b => (toAntisymmetrization_lt_toAntisymmetrization_iff (a := a) (b := b)).symm⟩

variable {κ : Type*} [LinearOrder κ]

def parent (i : ℕ) : ℕ := (i - 1) / 2

theorem parent_lt {i : ℕ} (h : 0 < i) : parent i < i := by
  unfold parent
  omega

theorem parent_eq_iff {i j : ℕ} (h : 0 < i) : parent i = j ↔ i = 2 * j + 1 ∨ i = 2 * j + 2 := by
  unfold parent
  omega

/-- No key is smaller than that of its parent. -/
def HeapOrder (k : ℕ → κ) (n : ℕ) : Prop := ∀ i, 0 < i → i < n → k (parent i) ≤ k i

/-- The order holds, except that the key in slot `j` may be smaller than that of its parent. -/
structure UpOrder (k : ℕ → κ) (n j : ℕ) : Prop where
  order : ∀ i, 0 < i → i < n → i ≠ j → k (parent i) ≤ k i
  skip : ∀ i, 0 < i → i < n → parent i = j → 0 < j → k (parent j) ≤ k i

/-- The order holds, except that the key in slot `j` may be larger than those of its
children. -/
structure DownOrder (k : ℕ → κ) (n j : ℕ) : Prop where
  order : ∀ i, 0 < i → i < n → parent i ≠ j → k (parent i) ≤ k i
  skip : ∀ i, 0 < i → i < n → parent i = j → 0 < j → k (parent j) ≤ k i

/-- Exchanges two slots. -/
def swap {α : Type*} (a : ℕ → α) (i j : ℕ) : ℕ → α := update (update a i (a j)) j (a i)

theorem swap_apply {α : Type*} (a : ℕ → α) (i j m : ℕ) :
    swap a i j m = if m = j then a i else if m = i then a j else a m := by
  rw [swap, update_apply, update_apply]

theorem comp_swap {α β : Type*} (f : α → β) (a : ℕ → α) (i j : ℕ) :
    f ∘ swap a i j = swap (f ∘ a) i j := by
  funext m
  simp only [comp_apply, swap_apply, apply_ite f]

variable {k : ℕ → κ} {n i j : ℕ}

/-- **The root has the least key.** -/
theorem HeapOrder.root_le (h : HeapOrder k n) (hi : i < n) : k 0 ≤ k i := by
  induction i using Nat.strong_induction_on with
  | _ i ih =>
    rcases Nat.eq_zero_or_pos i with rfl | hpos
    · exact le_rfl
    · have hlt := parent_lt hpos
      exact (ih (parent i) hlt (hlt.trans hi)).trans (h i hpos hi)

/-- The keys of the heap are all that matters. -/
theorem HeapOrder.congr {k' : ℕ → κ} (h : HeapOrder k n) (hk : ∀ i < n, k' i = k i) :
    HeapOrder k' n := by
  intro i hpos hi
  rw [hk i hi, hk (parent i) ((parent_lt hpos).trans hi)]
  exact h i hpos hi

/-! ### Upwards -/

/-- An element is added at the end. -/
theorem UpOrder.of_push (h : HeapOrder k n) : UpOrder k (n + 1) n where
  order i hpos hi hne := h i hpos (by omega)
  skip i hpos hi hp := by
    have := (parent_eq_iff hpos).mp hp
    omega

/-- The element has reached its place. -/
theorem UpOrder.heapOrder (h : UpOrder k n j) (hj : 0 < j → k (parent j) ≤ k j) :
    HeapOrder k n := by
  intro i hpos hi
  by_cases hij : i = j
  · subst hij
    exact hj hpos
  · exact h.order i hpos hi hij

/-- An element that is smaller than its parent changes places with it. -/
theorem UpOrder.swap (h : UpOrder k n j) (hpos : 0 < j) (hj : j < n) (hlt : k j < k (parent j)) :
    UpOrder (swap k j (parent j)) n (parent j) := by
  have hpj := parent_lt hpos
  refine ⟨fun i hi hin hne => ?_, fun i hi hin hp hpp => ?_⟩
  · have hpi := parent_lt hi
    have hgrand : parent i = j → k (parent j) ≤ k i := fun hp => h.skip i hi hin hp hpos
    have hord : i ≠ j → k (parent i) ≤ k i := h.order i hi hin
    simp only [swap_apply]
    grind
  · have hpi := parent_lt hi
    have hup : k (parent (parent j)) ≤ k (parent j) :=
      h.order (parent j) hpp (hpj.trans hj) hpj.ne
    have hord : i ≠ j → k (parent i) ≤ k i := h.order i hi hin
    have hppj := parent_lt hpp
    simp only [swap_apply]
    grind

/-! ### Downwards -/

/-- The last element replaces the root. -/
theorem DownOrder.of_pop (h : HeapOrder k (n + 1)) : DownOrder (update k 0 (k n)) n 0 where
  order i hpos hi hne := by
    rw [update_of_ne hpos.ne', update_of_ne hne]
    exact h i hpos (by omega)
  skip i hpos hi hp h0 := absurd h0 (lt_irrefl 0)

/-- The element has reached its place. -/
theorem DownOrder.heapOrder (h : DownOrder k n j)
    (hj : ∀ i, 0 < i → i < n → parent i = j → k j ≤ k i) : HeapOrder k n := by
  intro i hpos hi
  by_cases hp : parent i = j
  · rw [hp]
    exact hj i hpos hi hp
  · exact h.order i hpos hi hp

/-- An element that is larger than its smaller child `c` changes places with it. -/
theorem DownOrder.swap {c : ℕ} (h : DownOrder k n j) (hpos : 0 < c) (hc : c < n)
    (hp : parent c = j) (hlt : k c < k j)
    (hmin : ∀ i, 0 < i → i < n → parent i = j → k c ≤ k i) :
    DownOrder (swap k j c) n c := by
  have hjc : j < c := hp ▸ parent_lt hpos
  refine ⟨fun i hi hin hne => ?_, fun i hi hin hpi _ => ?_⟩
  · have hlt' := parent_lt hi
    have hord : parent i ≠ j → k (parent i) ≤ k i := h.order i hi hin
    have hm : parent i = j → k c ≤ k i := hmin i hi hin
    have hskip : 0 < j → k (parent j) ≤ k c := fun hj => h.skip c hpos hc hp hj
    simp only [swap_apply]
    grind
  · have hlt' := parent_lt hi
    have hord : k (parent i) ≤ k i := h.order i hi hin (by omega)
    simp only [swap_apply]
    grind

end BinaryHeap
