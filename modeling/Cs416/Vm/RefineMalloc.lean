import Cs416.Vm.Refine
import Cs416.Vm.SpaceMalloc

/-!
# `n_malloc` and `n_free` on the address space

`space_nMalloc` says that `n_malloc` is `Space.malloc`: the same pages, the same outcome, the
joint invariant afterwards, and no write to a page that was mapped before. `space_nFree` is
the corresponding statement for `n_free`, where the TLB needs a hypothesis on the address.

The rollback of a failed `n_malloc` passes `i * PGSIZE` through an `int`; `roundUpPages_toInt`
shows that the page count survives the conversion for every run inside the address space.
-/

open ByteMem Scan

namespace MyVm

namespace Vm

variable {vm : Vm}

/-! ### The search and the reservation -/

theorem findRun_eq_firstRun (bm : Bytes) (n fuel vpn free : ℕ) :
    findRun bm n fuel vpn free = firstRun (bit bm) n fuel vpn free := by
  induction fuel generalizing vpn free with
  | zero => rfl
  | succ fuel ih =>
    rw [findRun, firstRun, getBit_eq]
    cases bit bm vpn <;> simp [ih]

theorem space_setVirtBits (vm : Vm) (b n : ℕ) :
    (setVirtBits vm b n).space = vm.space.take b n ∧
      (setVirtBits vm b n).physMem = vm.physMem ∧ (setVirtBits vm b n).pageDir = vm.pageDir ∧
      (setVirtBits vm b n).tlbStore = vm.tlbStore := by
  induction n with
  -- nothing is set: the run of length `0` holds no page
  | zero =>
    refine ⟨Space.ext rfl rfl rfl (funext fun w => ?_), rfl, rfl, rfl⟩
    simp only [setVirtBits, Space.take]
    rw [decide_eq_false (by omega), Bool.false_or]
  | succ n ih =>
    obtain ⟨hsp, hm, hd, ht⟩ := ih
    refine ⟨Space.ext (congrArg Space.dir hsp :) (congrArg Space.page hsp :)
      (congrArg Space.used hsp :) (funext fun w => ?_), hm, hd, ht⟩
    have htk := congrFun (congrArg Space.taken hsp) w
    change bit (setBit (setVirtBits vm b n).virtBitmap (b + n)) w = _
    rw [bit_setBit]
    -- page `b + n` is the one the last iteration adds
    by_cases hw : w = b + n
    · rw [hw, Function.update_self]
      simp only [Space.take]
      rw [decide_eq_true (by omega), Bool.true_or]
    · rw [Function.update_of_ne hw]
      refine htk.trans ?_
      simp only [Space.take]
      congr 1
      exact decide_eq_decide.mpr (by omega)

/-- `get_next_avail` is the first-fit search, and reserves the run it found. -/
theorem space_getNextAvail (vm : Vm) {n : ℕ} (hn : 0 < n) :
    (getNextAvail vm n = none ∧ vm.space.findRun n = none) ∨
    ∃ b, getNextAvail vm n = some (b * 4096, setVirtBits vm b n) ∧
      vm.space.findRun n = some b := by
  have heq : findRun vm.virtBitmap n (numVirtPages - 1) 1 0 = vm.space.findRun n :=
    findRun_eq_firstRun _ _ _ _ _
  unfold getNextAvail
  rw [heq]
  cases hf : vm.space.findRun n with
  | none => exact Or.inl ⟨rfl, rfl⟩
  | some b =>
    obtain ⟨-, hb, -, -⟩ := Space.findRun_eq_some hn hf
    have hbase : b <<< pfnShift % 2 ^ 32 = b * 4096 := by
      rw [Nat.shiftLeft_eq, show pfnShift = 12 from rfl]
      simp only [numVirtPages, maxMemSize, pgSize] at hb
      omega
    exact Or.inr ⟨b, by simp only [hbase], rfl⟩

/-! ### The rollback -/

/-- `n_free(base, i * PGSIZE)` frees `i` pages, although `i * PGSIZE` may exceed `INT_MAX`. -/
theorem roundUpPages_toInt {i : ℕ} (hi : i < numVirtPages) :
    roundUpPages (u32 (toInt (i * pgSize))) = i := by
  simp only [numVirtPages, maxMemSize, pgSize] at hi
  rw [u32_toInt, roundUpPages, show pgSize = 4096 from rfl]
  omega

/-- `n_free` on a well-formed space, whatever the address and the size. -/
theorem space_nFree (hw : vm.PageInv) (va : ℕ) (size : ℤ) :
    (nFree vm va size).space = vm.space.freePages (va / 4096) (roundUpPages (u32 size)) ∧
      (nFree vm va size).PageInv ∧
      Keeps (fun v => ∀ k < roundUpPages (u32 size), v ≠ (va / 4096 + k) % numVirtPages) vm
        (nFree vm va size) :=
  space_freePages hw va _

/-! ### The loop of `n_malloc` -/

/-- The loop of `n_malloc` is `Space.mallocPages`. -/
theorem space_mallocPages {b n i : ℕ} (h : vm.Inv) (hb : 1 ≤ b)
    (hlt : b + (i + n) ≤ numVirtPages)
    (hfree : ∀ k, i ≤ k → k < i + n → vm.space.page (b + k) = 0) :
    (mallocPages vm (b * 4096) i n).1.space = (vm.space.mallocPages b i n).1 ∧
      (mallocPages vm (b * 4096) i n).2
        = (if (vm.space.mallocPages b i n).2 then some (b * 4096) else none) ∧
      (mallocPages vm (b * 4096) i n).1.Inv ∧
      Keeps (fun v => ∀ k < i + n, v ≠ b + k) vm (mallocPages vm (b * 4096) i n).1 := by
  induction n generalizing vm i with
  | zero => exact ⟨rfl, rfl, h, Keeps.refl _ _⟩
  | succ n ih =>
    -- the rollback frees the pages below `b + i`
    have hroll : ∀ vm₁ : Vm, vm₁.Inv → Keeps (fun _ => True) vm vm₁ →
        (nFree vm₁ (b * 4096) (toInt (i * pgSize))).space = vm₁.space.freePages b i ∧
          (nFree vm₁ (b * 4096) (toInt (i * pgSize))).Inv ∧
          Keeps (fun v => ∀ k < i + (n + 1), v ≠ b + k) vm
            (nFree vm₁ (b * 4096) (toInt (i * pgSize))) := by
      intro vm₁ h₁ hk
      obtain ⟨hsp, -, hk'⟩ := space_nFree h₁.toPageInv (b * 4096) (toInt (i * pgSize))
      have hi : i < numVirtPages := by omega
      rw [roundUpPages_toInt hi, Nat.mul_div_cancel _ (by decide)] at hsp hk'
      refine ⟨hsp, freePages_inv_of_aligned h₁ (Nat.mul_mod_left _ _),
        (hk.mono fun _ _ _ => trivial).trans (hk'.mono fun v hv _ k hki => ?_)⟩
      rw [Nat.mod_eq_of_lt (by omega)]
      exact hv k (by omega)
    obtain ⟨hal, ha⟩ | ⟨f, hf, hal, ha⟩ := space_allocatePhysPage vm
    · rw [mallocPages, Space.mallocPages, hal, ha]
      obtain ⟨hsp, hinv, hk⟩ := hroll vm h (Keeps.refl _ _)
      exact ⟨hsp, rfl, hinv, hk⟩
    have hk₁ : Keeps (fun _ => True) vm (vm.setPhysBit f) := keeps_of_eq _ rfl rfl
    have h₁ : (vm.setPhysBit f).Inv := ⟨⟨h.pageDir, h.wf.alloc ha⟩, h.tlb⟩
    obtain ⟨-, hr, hu, -⟩ := h.wf.alloc_unref ha
    have hva : (b * 4096 + i * pgSize) % 2 ^ 32 = (b + i) * 4096 := by
      simp only [numVirtPages, maxMemSize, pgSize] at hlt ⊢
      omega
    have hva32 : (b + i) * 4096 < 2 ^ 32 := by
      simp only [numVirtPages, maxMemSize, pgSize] at hlt
      omega
    have hpn : (b + i) * 4096 / 4096 = b + i := Nat.mul_div_cancel _ (by decide)
    have hp : (vm.setPhysBit f).space.page (b + i) = 0 := by
      rw [setPhysBit_page]
      exact hfree i le_rfl (by omega)
    obtain ⟨hmp, hmp'⟩ | ⟨vm₂, hmp, hmp', h₂, hk₂⟩ := space_mapPage h₁ hva32
      (by rw [hpn]; omega) (by rw [hpn]; exact hp) hr hu
    · rw [hpn] at hmp'
      have hstep : mallocPages vm (b * 4096) i (n + 1)
          = (nFree (vm.setPhysBit f) (b * 4096) (toInt (i * pgSize)), none) := by
        rw [mallocPages, hal]
        dsimp only
        rw [hva, hmp, if_pos (by simp)]
      have hstep' : vm.space.mallocPages b i (n + 1)
          = ((vm.setPhysBit f).space.freePages b i, false) := by
        rw [Space.mallocPages, ha]
        dsimp only
        rw [hmp']
      rw [hstep, hstep']
      obtain ⟨hsp, hinv, hk⟩ := hroll _ h₁ hk₁
      exact ⟨hsp, rfl, hinv, hk⟩
    · rw [hpn] at hmp'
      have hstep : mallocPages vm (b * 4096) i (n + 1)
          = mallocPages vm₂ (b * 4096) (i + 1) n := by
        rw [mallocPages, hal]
        dsimp only
        rw [hva, hmp, if_neg (by simp)]
      have hstep' : vm.space.mallocPages b i (n + 1)
          = vm₂.space.mallocPages b (i + 1) n := by
        rw [Space.mallocPages, ha]
        dsimp only
        rw [hmp']
      rw [hstep, hstep']
      have hpage : ∀ v, v ≠ b + i → vm₂.space.page v = vm.space.page v := by
        intro v hv
        rw [Space.mapPage_page hmp', Function.update_of_ne hv, setPhysBit_page]
      obtain ⟨hsp, hres, hinv, hk⟩ := @ih vm₂ (i + 1) h₂ (by omega) fun k hk hk' => by
        rw [hpage _ (by omega)]
        exact hfree k (by omega) (by omega)
      refine ⟨hsp, hres, hinv, ((hk₁.trans hk₂).mono fun _ _ _ => trivial).trans ?_⟩
      exact hk.mono fun v hv _ k hk' => hv k (by omega)

/-- **`n_malloc`** is `Space.malloc`. It keeps the joint invariant, and every page mapped
before keeps its frame and its bytes. -/
theorem space_nMalloc (h : vm.Inv) (numBytes : ℕ) :
    (nMalloc vm numBytes).1.space = (vm.space.malloc (roundUpPages numBytes)).1 ∧
      (nMalloc vm numBytes).2 = (vm.space.malloc (roundUpPages numBytes)).2.map (· * 4096) ∧
      (nMalloc vm numBytes).1.Inv ∧ Keeps (fun _ => True) vm (nMalloc vm numBytes).1 := by
  rw [nMalloc, Space.malloc]
  by_cases hn : roundUpPages numBytes = 0
  · rw [if_pos hn, if_pos hn]
    exact ⟨rfl, rfl, h, Keeps.refl _ _⟩
  rw [if_neg hn, if_neg hn]
  obtain ⟨hg, hf⟩ | ⟨b, hg, hf⟩ := space_getNextAvail vm (Nat.pos_of_ne_zero hn)
  · rw [hg, hf]
    exact ⟨rfl, rfl, h, Keeps.refl _ _⟩
  rw [hg, hf]
  obtain ⟨hb1, hbn, hrun, -⟩ := Space.findRun_eq_some (Nat.pos_of_ne_zero hn) hf
  obtain ⟨hsp, hm, hd, ht⟩ := space_setVirtBits vm b (roundUpPages numBytes)
  set vm₁ := setVirtBits vm b (roundUpPages numBytes) with hvm₁
  have h₁ : vm₁.Inv :=
    ⟨⟨hd.trans h.pageDir, by rw [hsp]; exact h.wf.take _ _⟩, by rw [hsp, ht]; exact h.tlb⟩
  -- a clear bit means an unmapped page
  have hfree : ∀ k < roundUpPages numBytes, vm.space.page (b + k) = 0 := by
    intro k hk
    by_contra hc
    have := hrun (b + k) (by omega) (by omega)
    rw [h.wf.page_taken _ hc] at this
    exact absurd this (by decide)
  obtain ⟨hsp', hres, hinv, hk⟩ := space_mallocPages (n := roundUpPages numBytes) (i := 0) h₁ hb1
    (by omega) fun k _ hk => by rw [hsp]; exact hfree k (by omega)
  rw [hsp] at hsp' hres
  refine ⟨hsp', ?_, hinv, ?_⟩
  · dsimp only
    rw [hres]
    split <;> rfl
  · refine (keeps_of_eq _ hm (by rw [hsp]; rfl)).trans fun v _ hv => hk v (fun k hk' hc => hv ?_) hv
    rw [hsp, hc]
    exact hfree k (by omega)

/-- `n_free` from a page-aligned address. -/
theorem nFree_inv_of_aligned (h : vm.Inv) {va : ℕ} (hva : va % pgSize = 0) (size : ℤ) :
    (nFree vm va size).Inv :=
  freePages_inv_of_aligned h hva

end Vm

end MyVm
