import Mathlib.Tactic

/-!
# Flat memory with 32-bit addresses

A flat memory gives each address a cell or nothing. Addresses wrap around at `2 ^ 32`, so a
range is a base and a length, and the position of an address in a range is its forward
distance from the base (`dist`).

`store f a src n` overwrites the first `n` cells from `a` on. A copy loop that proceeds in
chunks composes by `store_store`. `IsPrefix f a n d` says that the first `d` of the `n`
cells from `a` on are present and that the next one, if there is one, is missing: it is
where a copy that stops at the first missing cell stops.
-/

namespace FlatMem

/-- A flat memory: the cell at each address, if there is one. -/
abbrev Flat (α : Type*) := ℕ → Option α

/-- The forward distance from `a` to `x`. -/
def dist (a x : ℕ) : ℕ := (x + 2 ^ 32 - a) % 2 ^ 32

variable {α : Type*}

/-- Overwrite the first `n` cells from `a` on by those of `src`. -/
def store (f : Flat α) (a : ℕ) (src : ℕ → α) (n : ℕ) : Flat α := fun x =>
  if x < 2 ^ 32 ∧ dist a x < n then some (src (dist a x)) else f x

/-- The first `d` of the `n` cells from `a` on are present, and no further one. -/
structure IsPrefix (f : Flat α) (a n d : ℕ) : Prop where
  le : d ≤ n
  present : ∀ k < d, f ((a + k) % 2 ^ 32) ≠ none
  stop : d < n → f ((a + d) % 2 ^ 32) = none

/-- The number of present cells in front of the first missing one, out of `n`. -/
def prefixLen [DecidableEq α] (f : Flat α) (a : ℕ) : ℕ → ℕ
  | 0 => 0
  | n + 1 => if f a = none then 0 else 1 + prefixLen f ((a + 1) % 2 ^ 32) n

theorem dist_add {a k : ℕ} (ha : a < 2 ^ 32) (hk : k < 2 ^ 32) :
    dist a ((a + k) % 2 ^ 32) = k := by
  unfold dist
  omega

/-- The distances from two bases on the same range. -/
theorem dist_shift {a n x : ℕ} (ha : a < 2 ^ 32) (hx : x < 2 ^ 32) (h : n ≤ dist a x) :
    dist ((a + n) % 2 ^ 32) x = dist a x - n := by
  unfold dist at *
  omega

theorem dist_shift_of_lt {a n x : ℕ} (ha : a < 2 ^ 32) (hx : x < 2 ^ 32) (hn : n ≤ 2 ^ 32)
    (h : dist a x < n) : dist ((a + n) % 2 ^ 32) x = dist a x + (2 ^ 32 - n) := by
  unfold dist at *
  omega

@[simp] theorem store_zero (f : Flat α) (a : ℕ) (src : ℕ → α) : store f a src 0 = f := by
  funext x
  exact if_neg fun h => Nat.not_lt_zero _ h.2

/-- Two adjacent stores are one store. -/
theorem store_store (f : Flat α) {a n m : ℕ} (src : ℕ → α) (ha : a < 2 ^ 32)
    (h : n + m ≤ 2 ^ 32) :
    store (store f a src n) ((a + n) % 2 ^ 32) (fun k => src (n + k)) m
      = store f a src (n + m) := by
  funext x
  unfold store
  by_cases hx : x < 2 ^ 32
  · by_cases hd : dist a x < n
    · rw [dist_shift_of_lt ha hx (by omega) hd, if_neg (by omega), if_pos ⟨hx, hd⟩,
        if_pos ⟨hx, by omega⟩]
    · rw [dist_shift ha hx (by omega)]
      by_cases hm : dist a x < n + m
      · have hk : n + (dist a x - n) = dist a x := by omega
        rw [if_pos ⟨hx, by omega⟩, if_pos ⟨hx, hm⟩]
        exact congrArg (fun k => some (src k)) hk
      · rw [if_neg (by omega), if_neg (by omega), if_neg (by omega)]
  · rw [if_neg (by omega), if_neg (by omega), if_neg (by omega)]

/-- A store into present cells keeps the set of present cells. -/
theorem store_eq_none_iff {f : Flat α} {a n x : ℕ} {src : ℕ → α} (ha : a < 2 ^ 32)
    (h : ∀ k < n, f ((a + k) % 2 ^ 32) ≠ none) : store f a src n x = none ↔ f x = none := by
  unfold store
  split
  · next hc =>
    have hx : (a + dist a x) % 2 ^ 32 = x := by
      obtain ⟨h1, -⟩ := hc
      unfold dist
      omega
    have := h _ hc.2
    rw [hx] at this
    simp [this]
  · exact Iff.rfl

theorem IsPrefix.nil {f : Flat α} (a : ℕ) : IsPrefix f a 0 0 :=
  ⟨le_rfl, fun _ h => absurd h (Nat.not_lt_zero _), fun h => absurd h (Nat.not_lt_zero _)⟩

theorem IsPrefix.stuck {f : Flat α} {a n : ℕ} (ha : a < 2 ^ 32) (h : f a = none) :
    IsPrefix f a n 0 :=
  ⟨Nat.zero_le _, fun _ h => absurd h (Nat.not_lt_zero _), fun _ => by
    rwa [Nat.add_zero, Nat.mod_eq_of_lt ha]⟩

/-- A chunk of present cells in front of a prefix. -/
theorem IsPrefix.append {f : Flat α} {a n m d : ℕ} (hm : ∀ k < m, f ((a + k) % 2 ^ 32) ≠ none)
    (h : IsPrefix f ((a + m) % 2 ^ 32) n d) : IsPrefix f a (m + n) (m + d) := by
  have hshift : ∀ k, ((a + m) % 2 ^ 32 + k) % 2 ^ 32 = (a + (m + k)) % 2 ^ 32 := fun k => by omega
  refine ⟨Nat.add_le_add_left h.le m, fun k hk => ?_, fun hd => ?_⟩
  · by_cases hkm : k < m
    · exact hm k hkm
    · have := h.present (k - m) (by omega)
      rwa [hshift, show m + (k - m) = k by omega] at this
  · rw [← hshift]
    exact h.stop (by omega)

theorem isPrefix_prefixLen [DecidableEq α] {f : Flat α} {a n : ℕ} (ha : a < 2 ^ 32) :
    IsPrefix f a n (prefixLen f a n) := by
  induction n generalizing a with
  | zero => exact IsPrefix.nil a
  | succ n ih =>
    rw [prefixLen]
    by_cases h : f a = none
    · rw [if_pos h]
      exact IsPrefix.stuck ha h
    · rw [if_neg h, Nat.add_comm n 1]
      refine IsPrefix.append (fun k hk => ?_) (ih (Nat.mod_lt _ (by decide)))
      rwa [show k = 0 by omega, Nat.add_zero, Nat.mod_eq_of_lt ha]

/-- The length of the prefix is determined by the presence of the cells. -/
theorem IsPrefix.unique {β : Type*} {f : Flat α} {g : Flat β} {a n d e : ℕ}
    (hfg : ∀ x, f x = none ↔ g x = none) (hf : IsPrefix f a n d) (hg : IsPrefix g a n e) :
    d = e := by
  rcases Nat.lt_trichotomy d e with h | h | h
  · exact absurd ((hfg _).mp (hf.stop (lt_of_lt_of_le h hg.le))) (hg.present d h)
  · exact h
  · exact absurd ((hfg _).mpr (hg.stop (lt_of_lt_of_le h hf.le))) (hf.present e h)

end FlatMem
