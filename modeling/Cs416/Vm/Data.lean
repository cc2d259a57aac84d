import Cs416.Vm.RefineMalloc
import Cs416.Lib.FlatMemory

/-!
# Translation and data movement

`translate` returns a pointer to the entry the two-level walk finds, through the TLB or
through the table (`translate_spec`). Under the joint invariant the loops of `put_data` and
`get_data` are therefore copies in the flat memory `Vm.flat` that the mapped frames form:
`putLoop_spec` and `getLoop_spec` say that they process exactly the bytes in front of the
first unmapped page.
-/

open ByteMem FlatMem

namespace MyVm

namespace Vm

variable {vm : Vm}

/-- The byte at virtual address `a`, if its page is mapped. -/
def flat (vm : Vm) : Flat UInt8 := fun a =>
  if vm.space.page (a / 4096) = 0 then none
  else some (vm.physMem (vm.space.page (a / 4096) + a % 4096))

theorem flat_eq_none {a : ℕ} : vm.flat a = none ↔ vm.space.page (a / 4096) = 0 := by
  unfold flat
  split <;> simp [*]

theorem flat_congr {vm' : Vm} (hm : vm'.physMem = vm.physMem) (hs : vm'.space = vm.space) :
    vm'.flat = vm.flat := by
  unfold flat
  rw [hm, hs]

/-! ### `translate` -/

/-- **`translate`** returns no pointer exactly when the walk hits a zero entry; otherwise the
pointer leads to the entry the walk finds. It writes the TLB and its counters only. -/
theorem translate_spec (h : vm.Inv) {va : ℕ} (hva : va < 2 ^ 32) :
    let r := translate vm vm.pageDir va
    r.1.Inv ∧ r.1.space = vm.space ∧ r.1.physMem = vm.physMem ∧ r.1.pageDir = vm.pageDir ∧
      (r.2 = none ↔ vm.space.page (va / 4096) = 0) ∧
      ∀ p, r.2 = some p → r.1.deref p = vm.space.page (va / 4096) := by
  intro r
  -- a hit is coherent with the page map
  have hcheck : ∀ i, tlbCheck vm.tlbStore va = some i →
      (vm.tlbStore.entries i).pte = vm.space.page (va / 4096) ∧
        vm.space.page (va / 4096) ≠ 0 := by
    intro i hi
    unfold tlbCheck at hi
    split at hi
    · exact absurd hi (by simp)
    · rw [shiftRight_12] at hi
      exact h.tlb.find_pte hi
  cases hc : tlbCheck vm.tlbStore va with
  -- a hit: the pointer leads into the TLB
  | some i =>
    obtain ⟨hpte, hne⟩ := hcheck i hc
    have hr : r = (vm.countLookup, some (.tlbSlot i)) := by
      simp only [r, translate, hc]
    rw [hr]
    refine ⟨⟨⟨h.pageDir, h.wf⟩, h.tlb⟩, rfl, rfl, rfl, by simp [hne], fun p hp => ?_⟩
    rw [← Option.some.inj hp]
    exact hpte
  -- a miss: the counters, then the walk
  | none =>
    set vm₁ := vm.countLookup.countMiss with hvm₁
    have hpde : vm₁.loadPde vm.pageDir (pdx va) = vm.space.dir (va / 4096 / 1024) :=
      loadPde_eq hva
    by_cases hd : vm.space.dir (va / 4096 / 1024) = 0
    · have hr : r = (vm₁, none) := by
        simp only [r, translate, hc]
        rw [← hvm₁, hpde, if_pos hd]
      rw [hr]
      refine ⟨⟨⟨h.pageDir, h.wf⟩, h.tlb⟩, rfl, rfl, rfl, ?_, fun p hp => absurd hp (by simp)⟩
      simp only [true_iff]
      exact space_page_of_dir hd
    · have hpte : vm₁.loadPte (vm.space.dir (va / 4096 / 1024)) (ptx va)
          = vm.space.page (va / 4096) := by
        rw [← loadPde_eq hva]
        exact walk_eq hva (by rw [loadPde_eq hva]; exact hd)
      by_cases hp : vm.space.page (va / 4096) = 0
      · have hr : r = (vm₁, none) := by
          simp only [r, translate, hc]
          rw [← hvm₁, hpde, if_neg hd, hpte, if_pos hp]
        rw [hr]
        exact ⟨⟨⟨h.pageDir, h.wf⟩, h.tlb⟩, rfl, rfl, rfl, by simp [hp],
          fun p hp => absurd hp (by simp)⟩
      -- the walk succeeds, and the entry goes into the TLB
      · have hr : r = (vm₁.addTlb va (vm.space.page (va / 4096)),
            some (.pteAt (vm.space.dir (va / 4096 / 1024) + 4 * ptx va))) := by
          simp only [r, translate, hc]
          rw [← hvm₁, hpde, if_neg hd, hpte, if_neg hp]
        rw [hr]
        refine ⟨⟨⟨h.pageDir, h.wf⟩, ?_⟩, rfl, rfl, rfl, by simp [hp], fun p hp' => ?_⟩
        · exact h.tlb.add (by rw [shiftRight_12]) hp
        · rw [← Option.some.inj hp']
          exact hpte

/-! ### One chunk -/

/-- The bytes up to the end of the page, or all that remain. -/
theorem chunk_bounds {va n : ℕ} (hn : n ≠ 0) :
    0 < bytesToCopy va n ∧ bytesToCopy va n ≤ n ∧ va % 4096 + bytesToCopy va n ≤ 4096 := by
  rw [bytesToCopy_eq]
  omega

/-- The addresses of one chunk lie in one page. -/
theorem chunk_page {va n k : ℕ} (hva : va < 2 ^ 32) (hk : k < bytesToCopy va n) :
    (va + k) % 2 ^ 32 / 4096 = va / 4096 ∧ (va + k) % 2 ^ 32 % 4096 = va % 4096 + k := by
  rw [bytesToCopy_eq] at hk
  omega

/-- A chunk of a mapped page is present. -/
theorem chunk_present {va n : ℕ} (hva : va < 2 ^ 32) (hp : vm.space.page (va / 4096) ≠ 0) :
    ∀ k < bytesToCopy va n, vm.flat ((va + k) % 2 ^ 32) ≠ none := by
  intro k hk
  rw [Ne, flat_eq_none, (chunk_page hva hk).1]
  exact hp

/-- The `memcpy` of `put_data` stores one chunk in the flat memory and changes no entry. -/
theorem flat_memcpy (hw : vm.PageInv) {va n : ℕ} {src : Bytes} (hva : va < 2 ^ 32) (hn : n ≠ 0)
    (hp : vm.space.page (va / 4096) ≠ 0) :
    let m := memcpy vm.physMem (vm.space.page (va / 4096) + va % 4096) src (bytesToCopy va n)
    ({ vm with physMem := m } : Vm).space = vm.space ∧
      ({ vm with physMem := m } : Vm).flat = store vm.flat va src (bytesToCopy va n) := by
  intro m
  obtain ⟨hpos, hle, hin⟩ := @chunk_bounds va n hn
  have hsp : ({ vm with physMem := m } : Vm).space = vm.space :=
    space_storeData hw.pageDir hw.wf.toIsolated hp (by omega) (by omega)
  refine ⟨hsp, ?_⟩
  funext a
  have hcell : ({ vm with physMem := m } : Vm).flat a
      = if vm.space.page (a / 4096) = 0 then none
        else some (m (vm.space.page (a / 4096) + a % 4096)) := by
    unfold flat
    rw [hsp]
  rw [hcell]
  by_cases ha : vm.space.page (a / 4096) = 0
  · -- an unmapped address is not in the chunk
    rw [if_pos ha]
    unfold store
    rw [if_neg, flat, if_pos ha]
    rintro ⟨hlt, hd⟩
    obtain ⟨hpg, -⟩ := chunk_page hva hd
    rw [show (va + FlatMem.dist va a) % 2 ^ 32 = a by unfold FlatMem.dist; omega] at hpg
    rw [hpg] at ha
    exact hp ha
  rw [if_neg ha]
  have halt : a < 2 ^ 32 := by
    have := hw.wf.page_lt ha
    simp only [numVirtPages, maxMemSize, pgSize] at this
    omega
  by_cases hpg : a / 4096 = va / 4096
  · unfold store
    rw [hpg] at ha ⊢
    by_cases hd : FlatMem.dist va a < bytesToCopy va n
    · rw [if_pos ⟨halt, hd⟩]
      have hoff : a % 4096 = va % 4096 + FlatMem.dist va a := by
        have := (chunk_page hva hd).2
        rwa [show (va + FlatMem.dist va a) % 2 ^ 32 = a by unfold FlatMem.dist; omega] at this
      dsimp only [m]
      rw [memcpy_apply _ (by omega) (by omega), hoff]
      congr 2
      omega
    · rw [if_neg fun hc => hd hc.2, flat, hpg, if_neg ha]
      dsimp only [m]
      rw [memcpy_of_disjoint]
      unfold FlatMem.dist at hd
      omega
  · have hne : vm.space.page (a / 4096) ≠ vm.space.page (va / 4096) := fun hc =>
      hpg (hw.wf.page_inj _ _ ha hc)
    have hdis := (hw.wf.page_frame _ ha).1.disjoint (hw.wf.page_frame _ hp).1 hne
    dsimp only [m]
    rw [memcpy_of_disjoint _ (by omega)]
    unfold store
    rw [if_neg, flat, if_neg ha]
    rintro ⟨-, hd⟩
    obtain ⟨hpg', -⟩ := chunk_page hva hd
    rw [show (va + FlatMem.dist va a) % 2 ^ 32 = a by unfold FlatMem.dist; omega] at hpg'
    exact hpg hpg'

/-! ### The loops -/

/-- **The loop of `put_data`** stores the bytes in front of the first unmapped page. -/
theorem putLoop_spec (h : vm.Inv) (src : Bytes) (done : ℕ) {va n : ℕ} (hva : va < 2 ^ 32)
    (hn : n ≤ 2 ^ 32) :
    let r := putLoop vm src done va n
    r.1.Inv ∧ r.1.space = vm.space ∧ ∃ d, IsPrefix vm.flat va n d ∧
      r.1.flat = store vm.flat va (fun k => src (done + k)) d ∧
      r.2 = if d = n then 0 else -1 := by
  -- on the bytes that remain; each iteration stores one chunk, up to the end of a page
  induction n using Nat.strong_induction_on generalizing vm done va with
  | _ n ih =>
    intro r
    by_cases h0 : n = 0
    · subst h0
      have hr : r = (vm, 0) := by
        simp only [r]
        rw [putLoop, if_pos rfl]
      rw [hr]
      exact ⟨h, rfl, 0, IsPrefix.nil va, (store_zero _ _ _).symm, rfl⟩
    obtain ⟨hinv, hsp, hm, hd, hnone, hsome⟩ := translate_spec h hva
    cases ht : translate vm vm.pageDir va with
    | mk vm₁ o =>
      rw [ht] at hinv hsp hm hd hnone hsome
      dsimp only at hinv hsp hm hd hnone hsome
      cases o with
      -- the page of `va` is unmapped: nothing more is stored
      | none =>
        have hr : r = (vm₁, -1) := by
          simp only [r]
          rw [putLoop, if_neg h0, ht]
        rw [hr]
        refine ⟨hinv, hsp, 0, IsPrefix.stuck hva (flat_eq_none.mpr (hnone.mp rfl)), ?_, ?_⟩
        · rw [store_zero]
          exact flat_congr hm hsp
        · rw [if_neg (Ne.symm h0)]
      -- one chunk, then the rest by induction
      | some p =>
        have hbase := hsome p rfl
        have hp : vm.space.page (va / 4096) ≠ 0 := fun hc => absurd (hnone.mpr hc) (by simp)
        obtain ⟨hpos, hle, -⟩ := @chunk_bounds va n h0
        have hfl := flat_congr hm hsp
        obtain ⟨hsp₂, hfl₂⟩ := @flat_memcpy vm₁ hinv.toPageInv va n (fun k => src (done + k))
          hva h0 (by rw [hsp]; exact hp)
        rw [hsp, ← hbase, ← off_eq] at hsp₂ hfl₂
        set vm₂ : Vm := { vm₁ with
          physMem := memcpy vm₁.physMem (vm₁.deref p + off va) (fun k => src (done + k))
            (bytesToCopy va n) } with hvm₂
        have hr : r = putLoop vm₂ src (done + bytesToCopy va n)
            ((va + bytesToCopy va n) % 2 ^ 32) (n - bytesToCopy va n) := by
          simp only [r]
          rw [putLoop, if_neg h0, ht]
        have hinv₂ : vm₂.Inv :=
          ⟨⟨hinv.pageDir, by rw [hsp₂, ← hsp]; exact hinv.wf⟩,
            by rw [hsp₂, ← hsp]; exact hinv.tlb⟩
        obtain ⟨hi, hs, d, hpre, hst, hret⟩ := ih (n - bytesToCopy va n) (by omega) hinv₂
          (done + bytesToCopy va n) (show (va + bytesToCopy va n) % 2 ^ 32 < 2 ^ 32 by omega)
          (by omega)
        have hnone₂ : ∀ x, vm₂.flat x = none ↔ vm.flat x = none := fun x => by
          rw [flat_eq_none, flat_eq_none, hsp₂]
        -- the chunk has changed no byte from present to absent, so the prefix can be read in `vm`
        have hpre' : IsPrefix vm.flat ((va + bytesToCopy va n) % 2 ^ 32) (n - bytesToCopy va n) d :=
          ⟨hpre.le, fun k hk hc => hpre.present k hk ((hnone₂ _).mpr hc),
            fun hd => (hnone₂ _).mp (hpre.stop hd)⟩
        have happ := hpre'.append (chunk_present hva hp)
        rw [show bytesToCopy va n + (n - bytesToCopy va n) = n by omega] at happ
        rw [hr]
        refine ⟨hi, hs.trans hsp₂, bytesToCopy va n + d, happ, ?_, ?_⟩
        -- the two stores are next to each other
        · rw [hst, hfl₂, hfl]
          have hsrc : (fun k => src (done + bytesToCopy va n + k))
              = fun k => (fun j => src (done + j)) (bytesToCopy va n + k) := by
            funext k
            rw [Nat.add_assoc]
          rw [hsrc]
          exact store_store _ _ hva (by have := happ.le; omega)
        · rw [hret]
          exact if_congr (by omega) rfl rfl

/-- **The loop of `get_data`** delivers the bytes in front of the first unmapped page and
leaves the rest of the buffer alone. -/
theorem getLoop_spec (h : vm.Inv) (dst : Bytes) (done : ℕ) {va n : ℕ} (hva : va < 2 ^ 32) :
    let r := getLoop vm dst done va n
    r.1.Inv ∧ r.1.space = vm.space ∧ r.1.flat = vm.flat ∧ ∃ d, IsPrefix vm.flat va n d ∧
      (∀ k < d, some (r.2 (done + k)) = vm.flat ((va + k) % 2 ^ 32)) ∧
      ∀ j, j < done ∨ done + d ≤ j → r.2 j = dst j := by
  induction n using Nat.strong_induction_on generalizing vm done va dst with
  | _ n ih =>
    intro r
    by_cases h0 : n = 0
    · subst h0
      have hr : r = (vm, dst) := by
        simp only [r]
        rw [getLoop, if_pos rfl]
      rw [hr]
      exact ⟨h, rfl, rfl, 0, IsPrefix.nil va, fun k hk => absurd hk (by omega), fun _ _ => rfl⟩
    obtain ⟨hinv, hsp, hm, hd, hnone, hsome⟩ := translate_spec h hva
    cases ht : translate vm vm.pageDir va with
    | mk vm₁ o =>
      rw [ht] at hinv hsp hm hd hnone hsome
      dsimp only at hinv hsp hm hd hnone hsome
      have hfl := flat_congr hm hsp
      cases o with
      | none =>
        have hr : r = (vm₁, dst) := by
          simp only [r]
          rw [getLoop, if_neg h0, ht]
        rw [hr]
        exact ⟨hinv, hsp, hfl, 0, IsPrefix.stuck hva (flat_eq_none.mpr (hnone.mp rfl)),
          fun k hk => absurd hk (by omega), fun _ _ => rfl⟩
      | some p =>
        have hbase := hsome p rfl
        have hp : vm.space.page (va / 4096) ≠ 0 := fun hc => absurd (hnone.mpr hc) (by simp)
        obtain ⟨hpos, hle, -⟩ := @chunk_bounds va n h0
        set dst₁ := memcpy dst done (fun k => vm₁.physMem (vm₁.deref p + off va + k))
          (bytesToCopy va n) with hdst₁
        have hr : r = getLoop vm₁ dst₁ (done + bytesToCopy va n)
            ((va + bytesToCopy va n) % 2 ^ 32) (n - bytesToCopy va n) := by
          simp only [r]
          rw [getLoop, if_neg h0, ht]
        obtain ⟨hi, hs, hf, d, hpre, hget, hkeep⟩ := ih (n - bytesToCopy va n) (by omega) hinv
          dst₁ (done + bytesToCopy va n)
          (show (va + bytesToCopy va n) % 2 ^ 32 < 2 ^ 32 by omega)
        rw [hfl] at hpre hget hf
        have happ := hpre.append (chunk_present hva hp)
        rw [show bytesToCopy va n + (n - bytesToCopy va n) = n by omega] at happ
        rw [hr]
        refine ⟨hi, hs.trans hsp, hf, bytesToCopy va n + d, happ, fun k hk => ?_, fun j hj => ?_⟩
        · by_cases hkc : k < bytesToCopy va n
          · -- a byte of this chunk, untouched by the rest of the loop
            obtain ⟨hpg, hoff⟩ := chunk_page hva hkc
            rw [hkeep (done + k) (Or.inl (by omega)), hdst₁, memcpy_apply _ (by omega) (by omega),
              flat, hpg, hoff, if_neg hp, hbase, off_eq, hm]
            congr 2
            omega
          · have := hget (k - bytesToCopy va n) (by omega)
            rw [show done + bytesToCopy va n + (k - bytesToCopy va n) = done + k by omega,
              show ((va + bytesToCopy va n) % 2 ^ 32 + (k - bytesToCopy va n)) % 2 ^ 32
                = (va + k) % 2 ^ 32 by omega] at this
            exact this
        · rw [hkeep j (by omega), hdst₁, memcpy_of_disjoint _ (by omega)]

end Vm

end MyVm
