import Cs416.Vm.Runs

/-!
# The TLB path and the page walk

`translate` answers from the TLB when it can. `TlbAgrees` says that the answer is always the
one the two-level walk gives, and that no unmapped page has a valid entry left.

It holds in every state that a run reaches whose calls keep the TLB coherent
(`translate_agrees`), and the side condition is exact: a call that violates it leaves a stale
entry behind. `n_free(0xFFFFFFFF, 1)` does, once the last page is mapped. Physical memory is
a quarter of the address space, but a failed `n_malloc` keeps virtual pages reserved, so
first fit can be pushed to the last page (`staleCalls`).
-/

open ByteMem Lts

namespace MyVm

namespace Vm

/-- The two-level walk: `page_dir[PDX(va)]`, then entry `PTX(va)` of the table. -/
def walk (vm : Vm) (va : ℕ) : ℕ :=
  let pde := vm.loadPde vm.pageDir (pdx va)
  if pde = 0 then 0 else vm.loadPte pde (ptx va)

/-- `translate` agrees with the walk. -/
structure TlbAgrees (vm : Vm) : Prop where
  null_iff : ∀ va : UInt32,
    (translate vm vm.pageDir va.toNat).2 = none ↔ vm.walk va.toNat = 0
  deref : ∀ (va : UInt32) (p : PtePtr), (translate vm vm.pageDir va.toNat).2 = some p →
    (translate vm vm.pageDir va.toNat).1.deref p = vm.walk va.toNat
  /-- A valid entry holds the current PTE of its page. -/
  entry : ∀ i < tlbEntries, (vm.tlbStore.entries i).valid = true →
    (vm.tlbStore.entries i).vpn < numVirtPages ∧
      (vm.tlbStore.entries i).pte = vm.walk ((vm.tlbStore.entries i).vpn * pgSize)
  /-- A page has at most one valid entry. -/
  unique : ∀ i < tlbEntries, ∀ j < tlbEntries, (vm.tlbStore.entries i).valid = true →
    (vm.tlbStore.entries j).valid = true →
    (vm.tlbStore.entries i).vpn = (vm.tlbStore.entries j).vpn → i = j
  /-- A page that is not mapped, such as one that `n_free` removed, has no valid entry. -/
  unmapped : ∀ v < numVirtPages, vm.walk (v * pgSize) = 0 →
    ∀ i < tlbEntries, (vm.tlbStore.entries i).valid = true → (vm.tlbStore.entries i).vpn ≠ v

variable {vm : Vm}

theorem walk_eq_page {va : ℕ} (hva : va < 2 ^ 32) : vm.walk va = vm.space.page (va / 4096) := by
  unfold walk
  by_cases hd : vm.loadPde vm.pageDir (pdx va) = 0
  · rw [if_pos hd]
    rw [loadPde_eq hva] at hd
    exact (space_page_of_dir hd).symm
  · rw [if_neg hd]
    exact walk_eq hva hd

/-- The walk of the first address of a page. -/
theorem walk_page {v : ℕ} (hv : v < numVirtPages) : vm.walk (v * pgSize) = vm.space.page v := by
  simp only [numVirtPages, maxMemSize, pgSize] at hv ⊢
  rw [walk_eq_page (by omega), Nat.mul_div_cancel _ (by decide)]

theorem Inv.tlbAgrees (h : vm.Inv) : vm.TlbAgrees where
  null_iff va := by
    rw [walk_eq_page va.toNat_lt]
    exact (translate_spec h va.toNat_lt).2.2.2.2.1
  deref va p hp := by
    rw [walk_eq_page va.toNat_lt]
    exact (translate_spec h va.toNat_lt).2.2.2.2.2 p hp
  entry i _ hv := by
    obtain ⟨hp, h0⟩ := h.tlb.coherent i hv
    have hlt := h.wf.page_lt h0
    exact ⟨hlt, hp.trans (walk_page hlt).symm⟩
  unique i _ j _ hi hj he := h.tlb.unique i j hi hj he
  unmapped v hlt h0 i _ hv := by
    rintro rfl
    rw [walk_page hlt] at h0
    exact (h.tlb.coherent i hv).2 h0

end Vm

/-! ### The side condition is exact -/

/-- Invalidating one page does not affect the search for another. -/
theorem find_tlbInvalidate_of_ne {t : Tlb} {va vpn : ℕ} (h : va >>> pfnShift ≠ vpn) :
    (tlbInvalidate t va).find vpn = t.find vpn := by
  unfold tlbInvalidate
  split
  · rfl
  split
  · next i hi =>
    obtain ⟨-, -, hvpn⟩ := Tlb.find_eq_some hi
    refine Scan.firstIdx_congr fun j _ _ => ?_
    by_cases hji : j = i
    · -- the slot belongs to the other page before and after
      rw [hji, Tlb.setEntry_entries, Function.update_self, hvpn, beq_false_of_ne h,
        Bool.and_false, Bool.and_false]
    · rw [Tlb.setEntry_entries, Function.update_of_ne hji]
  · rfl

/-- A range that handles `0xFFFFFFFF` handles the last page at no other address. -/
theorem find_freePages_last {vm : Vm} (hw : vm.PageInv) {va : ℕ} (hva : va % 4096 = 4095) (n : ℕ) :
    (freePages vm va n).tlbStore.find (invalidPa >>> pfnShift)
      = vm.tlbStore.find (invalidPa >>> pfnShift) := by
  induction n with
  | zero => rfl
  | succ n ih =>
    obtain ⟨-, hw', -⟩ := Vm.space_freePages hw va n
    obtain ⟨-, -, -, ht⟩ := @Vm.space_freePage _ hw' ((va + n * pgSize) % 2 ^ 32)
      (Nat.mod_lt _ (by decide))
    rw [freePages, ht]
    split
    · exact ih
    by_cases he : (va + n * pgSize) % 2 ^ 32 = invalidPa
    · rw [he, tlbInvalidate, if_pos rfl]
      exact ih
    · rw [find_tlbInvalidate_of_ne, ih]
      simp only [pfnShift, invalidPa, pgSize] at he ⊢
      rw [shiftRight_12, shiftRight_12]
      omega

/-- An `n_free` that handles `0xFFFFFFFF` while the TLB holds an entry for the last page
leaves that entry behind. -/
theorem not_tlbAgrees_of_not_keepsTlb {vm : Vm} (h : vm.Inv) {c : Call}
    (hc : ¬ KeepsTlb (some vm) c) : ¬ (vm.call c).1.TlbAgrees := by
  unfold KeepsTlb at hc
  push Not at hc
  obtain ⟨hv, hfind⟩ := hc
  cases c with
  | nFree va size =>
    obtain ⟨k, hk, he⟩ := hv
    intro ha
    -- the address handled is `va + k * PGSIZE`, and it is `0xFFFFFFFF`
    have hva : va.toNat % 4096 = 4095 := by
      simp only [pgSize, invalidPa] at he
      omega
    have hlast : (va.toNat / 4096 + k) % numVirtPages = 1048575 := by
      simp only [numVirtPages, maxMemSize, pgSize, invalidPa] at he ⊢
      omega
    obtain ⟨i, hi⟩ := Option.ne_none_iff_exists'.mp hfind
    -- `TLB_invalidate` refused it, so the entry of the last page is still there
    rw [← find_freePages_last h.toPageInv hva (roundUpPages (u32 size.toInt))] at hi
    obtain ⟨hlt, hval, hvpn⟩ := Tlb.find_eq_some hi
    refine ha.unmapped 1048575 (by simp only [numVirtPages, maxMemSize, pgSize]; omega) ?_ i hlt
      hval (hvpn.trans (shiftRight_12 _))
    rw [Vm.walk_page (by simp only [numVirtPages, maxMemSize, pgSize]; omega)]
    -- but the page is one of those that were unmapped
    change (nFree vm va.toNat size.toInt).space.page 1048575 = 0
    rw [(Vm.space_nFree h.toPageInv va.toNat size.toInt).1, Space.freePages_page,
      if_pos ⟨k, hk, hlast.symm⟩]
  | _ => exact hv.elim

/-- **The TLB path agrees with the page walk** in every initialised state of a run whose calls
keep the TLB coherent, and the next call preserves the agreement exactly when it does. -/
theorem translate_agrees (heap : Bytes) {ls : List (Call × Result)} {vm : Vm}
    (hr : Run (coherentCalls heap) ls (some vm)) :
    vm.TlbAgrees ∧ ∀ c, (vm.call c).1.TlbAgrees ↔ KeepsTlb (some vm) c := by
  have h := library_inv hr vm rfl
  refine ⟨h.tlbAgrees, fun c => ⟨fun ha => ?_, fun hc => (Vm.call_inv h hc).tlbAgrees⟩⟩
  by_contra hc
  exact not_tlbAgrees_of_not_keepsTlb h hc ha

/-- The agreement after a first allocation of one byte. -/
theorem translate_agrees_first : (afterFirst (fun _ => 0) 1).TlbAgrees :=
  (translate_agrees _ (alignedCalls_coherent (run_first (fun _ => 0) (by decide)))).1

/-! ### A stale entry -/

/-- After a successful `translate` the TLB holds the page. -/
theorem find_translate {vm : Vm} {va : ℕ} {p : PtePtr} (h : vm.Inv) (hva : va < 2 ^ 32)
    (h0 : va ≠ 0) (hp : (translate vm vm.pageDir va).2 = some p) :
    (translate vm vm.pageDir va).1.tlbStore.find (va >>> pfnShift) ≠ none := by
  rw [translate] at hp ⊢
  cases hc : tlbCheck vm.tlbStore va with
  | some i =>
    rw [tlbCheck] at hc
    split at hc
    · exact absurd hc (by simp)
    · change vm.tlbStore.find (va >>> pfnShift) ≠ none
      rw [hc]
      simp
  | none =>
    set vm₁ := vm.countLookup.countMiss with hvm₁
    simp only [hc] at hp ⊢
    by_cases hd : vm₁.loadPde vm.pageDir (pdx va) = 0
    · rw [if_pos hd] at hp
      exact absurd hp (by simp)
    rw [if_neg hd] at hp ⊢
    by_cases hz : vm₁.loadPte (vm₁.loadPde vm.pageDir (pdx va)) (ptx va) = 0
    · rw [if_pos hz] at hp
      exact absurd hp (by simp)
    rw [if_neg hz]
    have hpte : vm₁.loadPte (vm₁.loadPde vm.pageDir (pdx va)) (ptx va)
        = vm.space.page (va / 4096) := Vm.walk_eq hva hd
    have hframe := (h.wf.page_frame _ (by rw [← hpte]; exact hz)).1.2
    rw [hpte]
    change (tlbAdd vm.tlbStore va (vm.space.page (va / 4096))).1.find (va >>> pfnShift) ≠ none
    -- the entry was refreshed or put in the victim slot
    obtain ⟨h1 | h1, -⟩ | ⟨i, hi, he⟩ | ⟨-, -, -, he⟩ :=
      tlbAdd_cases vm.tlbStore va (vm.space.page (va / 4096))
    · exact absurd h1 h0
    · simp only [memSize, invalidPa] at hframe h1
      omega
    · obtain ⟨hlt, hv, hvpn⟩ := Tlb.find_eq_some hi
      intro hn
      rw [he] at hn
      refine Tlb.find_eq_none hn hlt ?_ ?_
      · rw [Tlb.setEntry_entries, Function.update_self]
        exact hv
      · rw [Tlb.setEntry_entries, Function.update_self]
        exact hvpn
    · intro hn
      rw [he] at hn
      refine Tlb.find_eq_none hn h.tlb.victim_lt ?_ ?_
      · rw [Tlb.setEntry_entries, Function.update_self]
      · rw [Tlb.setEntry_entries, Function.update_self]

namespace Space

/-- A request that takes every frame, a failed one that reserves the pages up to the last
two, and three freed pages that are no neighbours: the next request for two pages gets the
last two. -/
theorem malloc_reaches_last :
    (((((initial.malloc 261887).1.malloc 786686).1.freePage 1).freePage 3).freePage 5
      |>.malloc 2).1.page 1048575 ≠ 0 := by
  obtain ⟨s, hs, hwf, hfree, htk, hpage, -, -⟩ := initial_malloc_max
  rw [hs]
  dsimp only
  have hfind : s.findRun 786686 = some 261888 := by
    refine findRun_of_lowest (by decide) (by decide)
      (by simp only [numVirtPages, maxMemSize, pgSize]; omega) (fun k h1 h2 => ?_)
      fun b' h1 h2 hrun => ?_
    · rw [← Bool.not_eq_true, htk]
      omega
    · have := hrun b' le_rfl (by omega)
      rw [← Bool.not_eq_true, htk] at this
      omega
  rw [malloc_of_full (by decide) hfind hfree]
  dsimp only
  set s₂ := s.take 261888 786686 with hs₂
  have htk₂ : ∀ v, s₂.taken v = true ↔ 1 ≤ v ∧ v ≤ 1048573 := fun v => by
    rw [hs₂, take_taken, htk]
    omega
  have hsib : ∀ v, 1 ≤ v → v ≤ 1000 → s₂.page v ≠ 0 := fun v h1 h2 => hpage v h1 (by omega)
  -- each freed page shares its table with page `2`
  have hwf₂ : s₂.WF := hwf.take _ _
  obtain ⟨hfr₁, -, ht₁⟩ := hwf₂.freePage_of_sibling (hsib 1 (by omega) (by omega))
    (hsib 2 (by omega) (by omega)) (by decide) (by decide)
  have hp₁ : ∀ v, 1 < v → v ≤ 1000 → (s₂.freePage 1).page v ≠ 0 := fun v h1 h2 => by
    rw [freePage_page, Function.update_of_ne (by omega)]
    exact hsib v (by omega) h2
  obtain ⟨hfr₃, -, ht₃⟩ := (hwf₂.freePage 1).freePage_of_sibling (hp₁ 3 (by omega) (by omega))
    (hp₁ 2 (by omega) (by omega)) (by decide) (by decide)
  have hp₃ : ∀ v, 1 < v → v ≠ 3 → v ≤ 1000 → ((s₂.freePage 1).freePage 3).page v ≠ 0 :=
    fun v h1 h3 h2 => by
      rw [freePage_page, Function.update_of_ne h3]
      exact hp₁ v h1 h2
  obtain ⟨hfr₅, -, ht₅⟩ := ((hwf₂.freePage 1).freePage 3).freePage_of_sibling
    (hp₃ 5 (by omega) (by omega) (by omega)) (hp₃ 2 (by omega) (by omega) (by omega)) (by decide)
    (by decide)
  have hwf₅ := ((hwf₂.freePage 1).freePage 3).freePage 5
  generalize ((s₂.freePage 1).freePage 3).freePage 5 = s₅ at hfr₅ ht₅ hwf₅ ⊢
  have htk₅ : ∀ v, s₅.taken v = true ↔ (1 ≤ v ∧ v ≤ 1048573) ∧ v ≠ 1 ∧ v ≠ 3 ∧ v ≠ 5 := by
    intro v
    rw [ht₅, ht₃, ht₁, ← htk₂]
    simp only [Function.update_apply]
    split_ifs <;> simp [*]
  have hfr : s₅.freeFrames = 3 := by
    rw [hfr₅, hfr₃, hfr₁, @freeFrames_congr s s₂ rfl, hfree]
  have hfind₅ : s₅.findRun 2 = some 1048574 := by
    refine findRun_of_lowest (by decide) (by decide)
      (by simp only [numVirtPages, maxMemSize, pgSize]; omega) (fun k h1 h2 => ?_)
      fun b' h1 h2 hrun => ?_
    · rw [← Bool.not_eq_true, htk₅]
      omega
    · have ha := hrun b' le_rfl (by omega)
      have hb := hrun (b' + 1) (by omega) (by omega)
      rw [← Bool.not_eq_true, htk₅] at ha hb
      omega
  have hneed : s₅.framesNeeded 1048574 2 ≤ s₅.freeFrames := by
    have hsame : ¬ (s₅.dir ((1048574 + 1) / 1024) = 0 ∧
        ∀ k < 1, (1048574 + k) / 1024 ≠ (1048574 + 1) / 1024) := fun hc => hc.2 0 (by decide) rfl
    rw [hfr, framesNeeded_succ, framesNeeded_succ, framesNeeded_zero, if_neg hsame]
    split_ifs <;> omega
  obtain ⟨s₆, hs₆, hp₆⟩ := malloc_of_fits hwf₅ (by decide) hfind₅ hneed
  rw [hs₆]
  exact (hp₆.mapped 1 (by decide)).1

end Space

/-- The requests and frees of `malloc_reaches_last` after the first request. -/
def staleSetup : List Call :=
  [.nMalloc 3222265856, .nFree 0x1000 1, .nFree 0x3000 1, .nFree 0x5000 1, .nMalloc 8192]

/-- The calls that leave a stale entry: the last page is allocated, accessed, and freed at the
address that `TLB_invalidate` refuses. -/
def staleCalls : List Call :=
  .nMalloc 1072689152 :: staleSetup ++ [.translate 0xFFFFF000, .nFree 0xFFFFFFFF 1]

theorem staleSetup_call (s : Space) : staleSetup.foldl Space.call s
    = (((((s.malloc 786686).1.freePage 1).freePage 3).freePage 5).malloc 2).1 := by
  rw [staleSetup, List.foldl_cons, List.foldl_cons, List.foldl_cons, List.foldl_cons,
    List.foldl_cons, List.foldl_nil, Space.call_nMalloc _ (by decide) (show _ = 2 by decide),
    Space.call_nFree_page _ (show _ = 5 by decide) (by decide) (by decide),
    Space.call_nFree_page _ (show _ = 3 by decide) (by decide) (by decide),
    Space.call_nFree_page _ (show _ = 1 by decide) (by decide) (by decide),
    Space.call_nMalloc _ (by decide) (show _ = 786686 by decide)]

/-- The memory in which the last page is mapped. -/
theorem staleSetup_space :
    let vm := (afterFirst (fun _ => 0) 1072689152).calls staleSetup
    vm.Inv ∧ vm.space.page 1048575 ≠ 0 := by
  intro vm
  have h₀ := library_inv (alignedCalls_coherent (run_first (fun _ => 0)
    (show (1072689152 : UInt32) ≠ 0 by decide))) _ rfl
  obtain ⟨h, hsp⟩ := Vm.Inv.calls h₀ (show ∀ c ∈ staleSetup, c.Aligned by
    simp [staleSetup, Call.Aligned, pgSize])
  refine ⟨h, ?_⟩
  rw [hsp, staleSetup_call, space_afterFirst,
    Space.call_nMalloc _ (by decide) (show _ = 261887 by decide)]
  exact Space.malloc_reaches_last

/-- An access to the mapped last page and a free at `0xFFFFFFFF` leave a stale entry. -/
theorem stale_of_last_mapped {vm : Vm} (h : vm.Inv) {va : UInt32} (hva : va.toNat / 4096 = 1048575)
    (hp : vm.space.page 1048575 ≠ 0) :
    ¬ (vm.calls [.translate va, .nFree 0xFFFFFFFF 1]).TlbAgrees := by
  obtain ⟨hi, -, -, -, hnone, -⟩ := Vm.translate_spec h va.toNat_lt
  rw [hva] at hnone
  obtain ⟨p, hp⟩ := Option.ne_none_iff_exists'.mp fun hn => hp (hnone.mp hn)
  have hfind := find_translate h va.toNat_lt (by omega) hp
  have hvpn : va.toNat >>> pfnShift = invalidPa >>> pfnShift := by
    rw [shiftRight_12, hva]
    rfl
  rw [hvpn] at hfind
  rw [Vm.calls_cons, Vm.calls_cons, Vm.calls_nil]
  exact not_tlbAgrees_of_not_keepsTlb hi fun hk => hfind (hk ⟨0, by decide, by decide⟩)

/-- **A stale entry.** These calls end in a state whose TLB translates an unmapped page. -/
theorem staleCalls_not_tlbAgrees : ∃ ls vm, ls.map Prod.fst = staleCalls ∧
    Run (library fun _ => 0) ls (some vm) ∧ ¬ vm.TlbAgrees := by
  obtain ⟨h, hpage⟩ := staleSetup_space
  obtain ⟨ls, hls, hr⟩ := run_calls (run_first (fun _ => 0)
    (show (1072689152 : UInt32) ≠ 0 by decide)).of_restrict
    (staleSetup ++ [.translate 0xFFFFF000, .nFree 0xFFFFFFFF 1])
  rw [Vm.calls_append] at hr
  exact ⟨ls, _, hls, hr, stale_of_last_mapped h (by decide) hpage⟩

end MyVm
