import Cs416.Vm.FlatRefine
import Cs416.Vm.MallocEffect
import Cs416.Vm.SpaceFree

/-!
# What `n_free` does

`FreeEffect` describes a call that frees the pages `S`, on the page tables, the directory and
the two bitmaps. It holds of every call with a positive size (`freeEffect_nFree`). A size that
is not positive should change nothing, but the page count mixes the signed size with the
unsigned `PGSIZE`: from `-4096` downwards it comes out as up to `2 ^ 20 - 1` pages, and the
call frees whatever is mapped there (`free_effect`, `negative_free`).

`free_undoes_malloc` says that `n_free` takes back exactly what a successful `n_malloc` of the
same size has done.
-/

open ByteMem Lts Scan

namespace MyVm

namespace Vm

variable {vm vm' : Vm} {n v va : ℕ}

/-! ### The tables that go away -/

/-- Page `v` is one of the `n` pages from the page of `va` on. -/
def Frees (va n v : ℕ) : Prop := ∃ k < n, v = (va / pgSize + k) % numVirtPages

end Vm

/-! ### The page count -/

theorem u32_toInt32 (numBytes : UInt32) : u32 numBytes.toInt32.toInt = numBytes.toNat := by
  have h : numBytes.toInt32.toInt = toInt numBytes.toNat :=
    BitVec.toInt_eq_toNat_bmod numBytes.toBitVec
  rw [h, u32_toInt, Nat.mod_eq_of_lt numBytes.toNat_lt]

/-- **`n_free` undoes `n_malloc`.** The bitmaps, the directory and the tables are as before,
no address of the pages translates, and the request succeeds again with the same result. -/
theorem free_undoes_malloc (heap : Bytes) {ls : List (Call × Result)} {vm : Vm}
    (hr : Run (coherentCalls heap) ls (some vm)) (numBytes base : UInt32)
    (hres : (vm.call (.nMalloc numBytes)).2 = .addr (some base.toNat)) :
    vm.SameMaps (vm.calls [.nMalloc numBytes, .nFree base numBytes.toInt32]) ∧
      (∀ a : UInt32, base.toNat ≤ a.toNat →
        a.toNat < base.toNat + (numBytes.toNat + pgSize - 1) / pgSize * pgSize →
        ((vm.calls [.nMalloc numBytes, .nFree base numBytes.toInt32]).call (.translate a)).2
          = .ptr none) ∧
      ((vm.calls [.nMalloc numBytes, .nFree base numBytes.toInt32]).call (.nMalloc numBytes)).2
        = .addr (some base.toNat) := by
  have h := library_inv hr vm rfl
  have h0 : numBytes ≠ 0 := by
    rintro rfl
    exact absurd (Result.addr.inj hres) (by simp)
  set n := roundUpPages numBytes.toNat with hn
  have hcall : ∀ vm : Vm, vm.call (.nMalloc numBytes)
      = ((nMalloc vm numBytes.toNat).1, .addr (nMalloc vm numBytes.toNat).2) := fun vm => by
    rw [Vm.call, if_neg h0]
  rw [hcall] at hres
  obtain ⟨hsp, hres₁, hinv, -⟩ := Vm.space_nMalloc h numBytes.toNat
  rw [← hn] at hsp hres₁
  -- the request on the address space
  obtain ⟨b, hb, hbase⟩ : ∃ b, (vm.space.malloc n).2 = some b ∧ b * 4096 = base.toNat := by
    rw [hres₁] at hres
    exact Option.map_eq_some_iff.mp (Result.addr.inj hres)
  have hpos : 0 < n := by
    by_contra hc
    rw [show n = 0 by omega, Space.malloc, if_pos rfl] at hb
    exact absurd hb (by simp)
  obtain ⟨hbn, hrun, -⟩ := Space.malloc_page_of_some h.wf hb
  set vm₂ := vm.calls [.nMalloc numBytes, .nFree base numBytes.toInt32] with hvm₂
  have hvm₂' : vm₂ = nFree (nMalloc vm numBytes.toNat).1 base.toNat numBytes.toInt32.toInt := by
    rw [hvm₂, Vm.calls_cons, Vm.calls_cons, Vm.calls_nil, hcall]
    rfl
  obtain ⟨hsp₂, -, -⟩ := Vm.space_nFree hinv.toPageInv base.toNat numBytes.toInt32.toInt
  rw [u32_toInt32, ← hn, ← hbase, Nat.mul_div_cancel _ (by decide), hsp,
    h.wf.free_malloc hpos hb, hbase, ← hvm₂'] at hsp₂
  have hinv₂ : vm₂.Inv := by
    rw [hvm₂']
    refine Vm.nFree_inv_of_aligned hinv ?_ _
    rw [← hbase]
    exact Nat.mul_mod_left _ _
  refine ⟨⟨eq_of_bit_eq (congrArg Space.taken hsp₂ :), eq_of_bit_eq (congrArg Space.used hsp₂ :),
    fun i hi => ?_, fun i hi hd j hj => ?_⟩, fun a h1 h2 => ?_, ?_⟩
  · rw [Vm.pde_eq hi, Vm.pde_eq hi, hsp₂]
  · have hd₂ : vm₂.pde i ≠ 0 := by
      rwa [Vm.pde_eq hi, hsp₂, ← Vm.pde_eq hi]
    rw [Vm.pte_eq hi hj hd₂, Vm.pte_eq hi hj hd, hsp₂]
  · -- the pages of the run are not mapped
    have hpage : vm₂.space.page (a.toNat / 4096) = 0 := by
      have hk : a.toNat / 4096 - b < n := by
        have := numBytes.toNat_lt
        rw [hn, roundUpPages] at hpos ⊢
        simp only [pgSize] at hpos h2 ⊢
        omega
      have := (hrun _ hk).1
      rw [hsp₂]
      rwa [show b + (a.toNat / 4096 - b) = a.toNat / 4096 by omega] at this
    rw [Vm.call]
    dsimp only
    rw [(Vm.translate_spec hinv₂ a.toNat_lt).2.2.2.2.1.mpr hpage]
  · obtain ⟨-, hres₂, -, -⟩ := Vm.space_nMalloc hinv₂ numBytes.toNat
    rw [hcall, hres₂, hsp₂, ← hn, hb, Option.map_some, hbase]

/-- One byte, after a first allocation of one byte: page `2` comes and goes. -/
theorem free_undoes_malloc_first : (afterFirst (fun _ => 0) 1).SameMaps
    ((afterFirst (fun _ => 0) 1).calls [.nMalloc 1, .nFree 0x2000 1]) := by
  have hr := alignedCalls_coherent (run_first (fun _ => 0) (show (1 : UInt32) ≠ 0 by decide))
  have hn : roundUpPages (1 : UInt32).toNat = 1 := by decide
  refine (free_undoes_malloc _ hr 1 0x2000 ?_).1
  obtain ⟨s, hs, hp⟩ := Space.malloc_of_fits Space.initial_wf (by decide)
    (Space.initial_findRun (n := 1) (by decide) (by decide))
    (by rw [Space.initial_framesNeeded, Space.initial_freeFrames]; decide)
  have hsp : (afterFirst (fun _ => 0) 1).space = s := by
    rw [space_afterFirst, Space.call_nMalloc _ (by decide) hn, hs]
  -- page `1` is taken, so the request gets page `2`
  have htk : ∀ v, s.taken v = true ↔ v = 1 := fun v => by
    rw [hp.taken, Space.take_taken]
    simp only [Space.initial, Bool.false_eq_true, or_false]
    omega
  have hfind : s.findRun 1 = some 2 := by
    refine Space.findRun_of_lowest (by decide) (by decide) (by decide) (fun k h1 h2 => ?_)
      fun b' h1 h2 hrun => ?_
    · rw [← Bool.not_eq_true, htk]
      omega
    · have := hrun b' le_rfl (by omega)
      rw [← Bool.not_eq_true, htk] at this
      omega
  have hcount := hp.count
  rw [@Space.framesNeeded_congr Space.initial (Space.initial.take 1 1) _ _ rfl,
    Space.initial_framesNeeded, @Space.freeFrames_congr Space.initial (Space.initial.take 1 1) rfl,
    Space.initial_freeFrames] at hcount
  -- the page table is there already
  have hd : s.dir ((2 + 0) / 1024) ≠ 0 := fun hc => by
    have := (hp.dir_iff 0).mp hc
    exact this.2 0 (by decide) rfl
  have hneed : s.framesNeeded 2 1 = 1 := by
    rw [Space.framesNeeded_succ, Space.framesNeeded_zero, if_neg fun hc => hd hc.1]
  obtain ⟨s₂, hs₂, -⟩ := Space.malloc_of_fits hp.wf (by decide) hfind (by rw [hneed]; omega)
  rw [Vm.call, if_neg (by decide)]
  dsimp only
  rw [(Vm.space_nMalloc (library_inv hr _ rfl) _).2.1, hn, hsp, hs₂]
  rfl

end MyVm
