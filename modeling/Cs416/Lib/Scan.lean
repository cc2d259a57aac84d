import Mathlib.Tactic

/-!
# Linear scans

`firstIdx p s n` is the loop `for (i = s; i < s + n; i++) if (p(i)) return i;`. Allocators
and table lookups are instances of it, so its characterisations (the index found, the
failed scan, and congruence in the predicate) are proved once here.

`firstRun used len n pos free` is the single pass that looks for `len` consecutive clear
positions while counting how many clear positions lie just behind the scan. It is first
fit: `firstRun_spec` says that the run it finds is the lowest one, and that it fails only
when there is none. The loop invariant is that the counter is the length of the longest
clear stretch that ends at the current position.

`clearCount used n` counts the clear positions below `n`: what a first-fit allocator over
`n` slots can still hand out.
-/

namespace Scan

/-- The first index in `[s, s + n)` that satisfies `p`. -/
def firstIdx (p : ℕ → Bool) (s : ℕ) : ℕ → Option ℕ
  | 0 => none
  | n + 1 => if p s then some s else firstIdx p (s + 1) n

theorem firstIdx_eq_some {p : ℕ → Bool} {n s k : ℕ} :
    firstIdx p s n = some k ↔
      s ≤ k ∧ k < s + n ∧ p k = true ∧ ∀ j, s ≤ j → j < k → p j = false := by
  induction n generalizing s with
  | zero =>
    simp only [firstIdx, reduceCtorEq, false_iff]
    omega
  | succ n ih =>
    rw [firstIdx]
    -- the scan stops at the first index that satisfies `p`
    by_cases hp : p s = true
    · rw [if_pos hp]
      constructor
      · intro h
        obtain rfl := Option.some.inj h
        exact ⟨le_rfl, by omega, hp, fun j h₁ h₂ => by omega⟩
      · rintro ⟨hl, hu, hk, hmin⟩
        by_contra hne
        have hlt : s < k := by
          rcases hl.lt_or_eq with h | h
          · exact h
          · exact absurd (by rw [h]) hne
        rw [hmin s le_rfl hlt] at hp
        exact absurd hp (by decide)
    · rw [if_neg hp, ih]
      constructor
      · rintro ⟨hl, hu, hk, hmin⟩
        refine ⟨by omega, by omega, hk, fun j h₁ h₂ => ?_⟩
        rcases h₁.lt_or_eq with h | rfl
        · exact hmin j h h₂
        · simpa using hp
      · rintro ⟨hl, hu, hk, hmin⟩
        have hne : s ≠ k := fun h => hp (h ▸ hk)
        exact ⟨by omega, by omega, hk, fun j h₁ h₂ => hmin j (by omega) h₂⟩

theorem firstIdx_eq_none {p : ℕ → Bool} {n s : ℕ} :
    firstIdx p s n = none ↔ ∀ j, s ≤ j → j < s + n → p j = false := by
  induction n generalizing s with
  | zero => simp only [firstIdx, true_iff]; omega
  | succ n ih =>
    rw [firstIdx]
    by_cases hp : p s = true
    · rw [if_pos hp]
      simp only [reduceCtorEq, false_iff, not_forall]
      exact ⟨s, le_rfl, by omega, by simp [hp]⟩
    · rw [if_neg hp, ih]
      constructor
      · intro h j h₁ h₂
        rcases h₁.lt_or_eq with hlt | rfl
        · exact h j hlt (by omega)
        · simpa using hp
      · exact fun h j h₁ h₂ => h j (by omega) (by omega)

theorem firstIdx_congr {p q : ℕ → Bool} {n s : ℕ}
    (h : ∀ j, s ≤ j → j < s + n → p j = q j) : firstIdx p s n = firstIdx q s n := by
  induction n generalizing s with
  | zero => rfl
  | succ n ih =>
    rw [firstIdx, firstIdx, h s le_rfl (by omega), ih fun j h₁ h₂ => h j (by omega) (by omega)]

/-- A scan in two parts. -/
theorem firstIdx_add (p : ℕ → Bool) (s m n : ℕ) :
    firstIdx p s (m + n) = (firstIdx p s m).or (firstIdx p (s + m) n) := by
  induction m generalizing s with
  | zero => rw [Nat.zero_add, Nat.add_zero, firstIdx, Option.none_or]
  | succ m ih =>
    rw [Nat.add_right_comm, firstIdx, firstIdx]
    by_cases hp : p s = true
    · rw [if_pos hp, if_pos hp, Option.some_or]
    · rw [if_neg hp, if_neg hp, ih, Nat.add_right_comm, Nat.add_assoc]

/-- A scan counted from another origin. -/
theorem firstIdx_shift (p : ℕ → Bool) (a s n : ℕ) :
    firstIdx p (a + s) n = (firstIdx (fun j => p (a + j)) s n).map (a + ·) := by
  induction n generalizing s with
  | zero => rfl
  | succ n ih =>
    rw [firstIdx, firstIdx]
    by_cases hp : p (a + s) = true
    · rw [if_pos hp, if_pos hp, Option.map_some]
    · rw [if_neg hp, if_neg hp, Nat.add_assoc, ih]

/-- A scan whose predicate holds somewhere in range succeeds. -/
theorem exists_firstIdx {p : ℕ → Bool} {n s j : ℕ} (hl : s ≤ j) (hu : j < s + n)
    (hp : p j = true) : ∃ k, firstIdx p s n = some k := by
  cases h : firstIdx p s n with
  | some k => exact ⟨k, rfl⟩
  | none =>
    rw [firstIdx_eq_none.mp h j hl hu] at hp
    exact absurd hp (by decide)

/-! ### First fit -/

/-- The `len` positions from `b` on are clear. -/
def IsRun (used : ℕ → Bool) (len b : ℕ) : Prop := ∀ k, b ≤ k → k < b + len → used k = false

/-- The scan of `n` positions from `pos` on, with `free` clear positions just behind it. -/
def firstRun (used : ℕ → Bool) (len : ℕ) : (n pos free : ℕ) → Option ℕ
  | 0, _, _ => none
  | n + 1, pos, free =>
    let free := if used pos then 0 else free + 1
    if len ≤ free then some (pos + 1 - len) else firstRun used len n (pos + 1) free

/-- What a scan that may start at `lo` found: the lowest run, or that there is none that
ends by `hi`. -/
def FoundFrom (used : ℕ → Bool) (len lo hi : ℕ) : Option ℕ → Prop
  | some b => lo ≤ b ∧ b + len ≤ hi ∧ IsRun used len b ∧
      ∀ b', lo ≤ b' → b' < b → ¬ IsRun used len b'
  | none => ∀ b, lo ≤ b → b + len ≤ hi → ¬ IsRun used len b

/-- The scan in the middle of its range: `free` counts the clear positions behind `pos`, up
to the last used one or the lower end, and no run ends by `pos`. -/
theorem firstRun_from {used : ℕ → Bool} {len lo : ℕ} (hlen : 0 < len) (n pos free : ℕ)
    (hlt : free < len) (hfree : lo + free ≤ pos) (hclear : ∀ k, pos - free ≤ k → k < pos → used k = false)
    (hstop : lo + free = pos ∨ used (pos - free - 1) = true)
    (hnone : ∀ b, lo ≤ b → b + len ≤ pos → ¬ IsRun used len b) :
    FoundFrom used len lo (pos + n) (firstRun used len n pos free) := by
  induction n generalizing pos free with
  | zero => exact fun b h₁ h₂ => hnone b h₁ (by omega)
  | succ n ih =>
    rw [firstRun]
    by_cases hu : used pos = true
    · -- a used position resets the counter, and no run may contain it
      simp only [hu, if_true]
      rw [if_neg (by omega), show pos + (n + 1) = pos + 1 + n by omega]
      refine ih (pos + 1) 0 hlen (by omega) (fun k h₁ h₂ => by omega) (Or.inr (by simpa using hu)) ?_
      intro b h₁ h₂ hrun
      by_cases hb : b + len ≤ pos
      · exact hnone b h₁ hb hrun
      · rw [hrun pos (by omega) (by omega)] at hu
        exact absurd hu (by decide)
    · have hu' : used pos = false := by simpa using hu
      simp only [hu', Bool.false_eq_true, if_false]
      have hclear' : ∀ k, pos - free ≤ k → k < pos + 1 → used k = false := by
        intro k h₁ h₂
        by_cases hk : k = pos
        · rw [hk]; exact hu'
        · exact hclear k h₁ (by omega)
      by_cases hl : len ≤ free + 1
      · rw [if_pos hl]
        refine ⟨by omega, by omega, fun k h₁ h₂ => hclear' k (by omega) (by omega), ?_⟩
        exact fun b' h₁ h₂ => hnone b' h₁ (by omega)
      · rw [if_neg hl, show pos + (n + 1) = pos + 1 + n by omega]
        refine ih (pos + 1) (free + 1) (by omega) (by omega)
          (fun k h₁ h₂ => hclear' k (by omega) h₂) ?_ ?_
        · rcases hstop with h | h
          · exact Or.inl (by omega)
          · exact Or.inr (by rw [show pos + 1 - (free + 1) - 1 = pos - free - 1 by omega]; exact h)
        · intro b h₁ h₂ hrun
          by_cases hb : b + len ≤ pos
          · exact hnone b h₁ hb hrun
          · -- a run ending at `pos` would reach below the counted stretch
            rcases hstop with h | h
            · omega
            · rw [hrun (pos - free - 1) (by omega) (by omega)] at h
              exact absurd h (by decide)

/-- First fit: the whole scan of `[lo, lo + n)`. -/
theorem firstRun_spec (used : ℕ → Bool) {len : ℕ} (hlen : 0 < len) (lo n : ℕ) :
    FoundFrom used len lo (lo + n) (firstRun used len n lo 0) :=
  firstRun_from hlen n lo 0 hlen (by omega) (fun k h₁ h₂ => by omega) (Or.inl (by omega))
    fun b h₁ h₂ => by omega

/-! ### Counting clear positions -/

/-- The number of clear positions below `n`. -/
@[irreducible] def clearCount (used : ℕ → Bool) (n : ℕ) : ℕ :=
  ((Finset.range n).filter fun f => used f = false).card

variable {used : ℕ → Bool} {n f : ℕ}

theorem clearCount_eq_zero : clearCount used n = 0 ↔ ∀ f < n, used f = true := by
  rw [clearCount, Finset.card_eq_zero, Finset.filter_eq_empty_iff]
  simp only [Finset.mem_range, Bool.not_eq_false]

theorem clearCount_of_clear (h : ∀ f, used f = false) : clearCount used n = n := by
  rw [clearCount, Finset.filter_true_of_mem fun f _ => h f, Finset.card_range]

/-- Using a clear position leaves one clear position less. -/
theorem clearCount_use (hf : f < n) (hu : used f = false) :
    clearCount (Function.update used f true) n + 1 = clearCount used n := by
  have hsplit : ((Finset.range n).filter fun g => used g = false)
      = insert f ((Finset.range n).filter fun g => Function.update used f true g = false) := by
    ext g
    simp only [Finset.mem_filter, Finset.mem_insert, Finset.mem_range]
    by_cases hg : g = f
    · subst hg; simp [hf, hu]
    · simp [hg]
  rw [clearCount, clearCount, hsplit, Finset.card_insert_of_notMem]
  simp

/-- Releasing a used position gives one clear position more. -/
theorem clearCount_release (hf : f < n) (hu : used f = true) :
    clearCount (Function.update used f false) n = clearCount used n + 1 := by
  rw [← @clearCount_use (Function.update used f false) n f hf (Function.update_self _ _ _),
    Function.update_idem, ← hu, Function.update_eq_self]

theorem clearCount_of_single (hf : f < n) (h : ∀ g, used g = true ↔ g = f) :
    clearCount used n + 1 = n := by
  have hclear : ∀ g, Function.update used f false g = false := fun g => by
    by_cases hg : g = f
    · rw [hg, Function.update_self]
    · rw [Function.update_of_ne hg, ← Bool.not_eq_true, h]
      exact hg
  rw [← clearCount_release hf ((h f).mpr rfl), clearCount_of_clear hclear]

end Scan
