import Cs416.Vm.TlbFifo
import Cs416.Vm.FreeEffect

/-!
# A working set that fits misses once

Accesses that stay in a set `W` of at most `TLB_ENTRIES` mapped pages make `tlb_misses` go up by at
most the number of its pages, however many they are and whatever the TLB holds when they begin
(`working_set_misses`): only pages of `W` are inserted, and before one of them falls out again
`TLB_ENTRIES` others would have to be inserted.

That the TLB is a ring of insertions holds of every state of the process, for every function of
the library writes it by `TLB_add` and `TLB_invalidate` alone (`TlbClosed`).
-/

open Function Lts ByteMem

namespace MyVm

/-! ### The TLB of every state is a ring -/

/-- The buffer holds the last insertions of some history. -/
def Tlb.IsRing (t : Tlb) : Prop := ∃ total at? pa?, Ring total at? pa? t

theorem Tlb.IsRing.add {t : Tlb} (h : t.IsRing) (va pa : ℕ) : (tlbAdd t va pa).1.IsRing := by
  obtain ⟨total, at?, pa?, hr⟩ := h
  obtain ⟨-, he⟩ | ⟨i, hi, he⟩ | ⟨-, -, hf, he⟩ := tlbAdd_cases t va pa <;> rw [he]
  · exact ⟨total, at?, pa?, hr⟩
  · exact ⟨_, _, _, hr.rewrite hi⟩
  · exact ⟨_, _, _, hr.insert hf⟩

theorem Tlb.IsRing.invalidate {t : Tlb} (h : t.IsRing) (va : ℕ) : (tlbInvalidate t va).IsRing := by
  obtain ⟨total, at?, pa?, hr⟩ := h
  unfold tlbInvalidate
  split
  · exact ⟨total, at?, pa?, hr⟩
  split
  · next i hi => exact ⟨_, _, _, hr.drop hi⟩
  · exact ⟨total, at?, pa?, hr⟩

section

variable {P : Tlb → Prop} {vm : Vm}

theorem addTlb_tlbStore (vm : Vm) (va pa : ℕ) :
    (vm.addTlb va pa).tlbStore = (tlbAdd vm.tlbStore va pa).1 := by
  dsimp only [Vm.addTlb]

theorem countLookup_tlbStore (vm : Vm) : vm.countLookup.tlbStore = vm.tlbStore := by
  dsimp only [Vm.countLookup]

theorem countMiss_tlbStore (vm : Vm) : vm.countMiss.tlbStore = vm.tlbStore := by
  dsimp only [Vm.countMiss]

theorem mapPageIn_tlbStore (vm : Vm) (pde va pa : ℕ) :
    (mapPageIn vm pde va pa).tlbStore = (tlbAdd vm.tlbStore va pa).1 := by
  rw [mapPageIn, addTlb_tlbStore, countMiss_tlbStore, countLookup_tlbStore]
  dsimp only [Vm.setVirtBit, Vm.setPhysBit, Vm.storeEntry]

theorem freePage_tlbStore (vm : Vm) (va : ℕ) : (freePage vm va).tlbStore = vm.tlbStore ∨
    (freePage vm va).tlbStore = tlbInvalidate vm.tlbStore va := by
  rw [freePage]
  dsimp only
  split
  · exact .inl rfl
  split
  · exact .inl rfl
  refine .inr ?_
  split <;> dsimp only [reclaimTable, unmapPage, Vm.zeroPage, Vm.clearPhysBit, Vm.clearVirtBit,
    Vm.storeEntry, Vm.invalidateTlb]

theorem allocatePhysPage_tlbStore {pa : ℕ} {vm' : Vm} (h : allocatePhysPage vm = some (pa, vm')) :
    vm'.tlbStore = vm.tlbStore := by
  unfold allocatePhysPage at h
  split at h
  · obtain ⟨-, rfl⟩ := Prod.mk.inj (Option.some.inj h)
    dsimp only [Vm.setPhysBit]
  · exact absurd h (by simp)

/-- What `TLB_add` and `TLB_invalidate` keep. -/
structure TlbClosed (P : Tlb → Prop) : Prop where
  add : ∀ t va pa, P t → P (tlbAdd t va pa).1
  invalidate : ∀ t va, P t → P (tlbInvalidate t va)

theorem TlbClosed.translate (hP : TlbClosed P) (h : P vm.tlbStore) (pgdir va : ℕ) :
    P (translate vm pgdir va).1.tlbStore := by
  have hcount : P vm.countLookup.countMiss.tlbStore := by
    rw [countMiss_tlbStore, countLookup_tlbStore]
    exact h
  rw [MyVm.translate]
  cases hc : tlbCheck vm.tlbStore va with
  | some i =>
    dsimp only
    rw [countLookup_tlbStore]
    exact h
  | none =>
    dsimp only
    split
    · exact hcount
    split
    · exact hcount
    · dsimp only
      rw [addTlb_tlbStore]
      exact hP.add _ va _ hcount

theorem TlbClosed.mapPage (hP : TlbClosed P) (h : P vm.tlbStore) (pgdir va pa : ℕ) :
    P (mapPage vm pgdir va pa).1.tlbStore := by
  rw [MyVm.mapPage]
  split
  · cases halloc : allocatePhysPage vm with
    | none => exact h
    | some x =>
      obtain ⟨pa', vm'⟩ := x
      dsimp only
      rw [mapPageIn_tlbStore]
      refine hP.add _ va pa ?_
      dsimp only [newPageTable, Vm.storeEntry, Vm.zeroPage]
      rw [allocatePhysPage_tlbStore halloc]
      exact h
  · rw [mapPageIn_tlbStore]
    exact hP.add vm.tlbStore va pa h

theorem TlbClosed.freePages (hP : TlbClosed P) (h : P vm.tlbStore) (va n : ℕ) :
    P (freePages vm va n).tlbStore := by
  induction n with
  | zero => exact h
  | succ n ih =>
    rw [MyVm.freePages]
    rcases freePage_tlbStore (MyVm.freePages vm va n) ((va + n * pgSize) % 2 ^ 32) with he | he
    · rw [he]
      exact ih
    · rw [he]
      exact hP.invalidate _ _ ih

theorem TlbClosed.mallocPages (hP : TlbClosed P) (h : P vm.tlbStore) (baseVa i n : ℕ) :
    P (mallocPages vm baseVa i n).1.tlbStore := by
  induction n generalizing vm i with
  | zero => exact h
  | succ n ih =>
    rw [MyVm.mallocPages]
    cases halloc : allocatePhysPage vm with
    | none =>
      dsimp only
      exact hP.freePages h _ _
    | some x =>
      obtain ⟨pa, vm'⟩ := x
      dsimp only
      have h' : P vm'.tlbStore := by
        rw [allocatePhysPage_tlbStore halloc]
        exact h
      have hmap := hP.mapPage h' vm'.pageDir ((baseVa + i * pgSize) % 2 ^ 32) pa
      by_cases hr : (MyVm.mapPage vm' vm'.pageDir ((baseVa + i * pgSize) % 2 ^ 32) pa).2 ≠ 0
      · rw [if_pos hr]
        exact hP.freePages hmap _ _
      · rw [if_neg hr]
        exact ih hmap _

theorem TlbClosed.putLoop (hP : TlbClosed P) (h : P vm.tlbStore) (src : Bytes)
    (done va n : ℕ) : P (putLoop vm src done va n).1.tlbStore := by
  induction n using Nat.strong_induction_on generalizing vm done va with
  | _ n ih =>
    rw [MyVm.putLoop]
    split
    · exact h
    · next hn =>
      have ht := hP.translate h vm.pageDir va
      have hpos := bytesToCopy_pos va hn
      split
      · next vm' heq =>
        rw [heq] at ht
        exact ht
      · next vm' pte heq =>
        rw [heq] at ht
        dsimp only at ht ⊢
        refine ih (n - bytesToCopy va n) (by omega) ?_ _ _
        exact ht

theorem TlbClosed.getLoop (hP : TlbClosed P) (h : P vm.tlbStore) (dst : Bytes)
    (done va n : ℕ) : P (getLoop vm dst done va n).1.tlbStore := by
  induction n using Nat.strong_induction_on generalizing vm dst done va with
  | _ n ih =>
    rw [MyVm.getLoop]
    split
    · exact h
    · next hn =>
      have ht := hP.translate h vm.pageDir va
      have hpos := bytesToCopy_pos va hn
      split
      · next vm' heq =>
        rw [heq] at ht
        exact ht
      · next vm' pte heq =>
        rw [heq] at ht
        dsimp only at ht ⊢
        exact ih (n - bytesToCopy va n) (by omega) ht _ _ _

/-- **The calls write the TLB by `TLB_add` and `TLB_invalidate`.** -/
theorem TlbClosed.call (hP : TlbClosed P) (h : P vm.tlbStore) (c : Call) :
    P (vm.call c).1.tlbStore := by
  cases c with
  | nMalloc numBytes =>
    rw [Vm.call]
    split
    · exact h
    dsimp only
    rw [nMalloc]
    split
    · exact h
    cases hnext : getNextAvail vm (roundUpPages numBytes.toNat) with
    | none => exact h
    | some x =>
      obtain ⟨baseVa, vm'⟩ := x
      dsimp only
      refine hP.mallocPages ?_ _ _ _
      rw [getNextAvail] at hnext
      split at hnext
      · obtain ⟨-, rfl⟩ := Prod.mk.inj (Option.some.inj hnext)
        rw [(Vm.space_setVirtBits vm _ _).2.2.2]
        exact h
      · exact absurd hnext (by simp)
  | nFree va size => exact hP.freePages h _ _
  | putData va val size =>
    rw [Vm.call]
    dsimp only
    cases val with
    | none => exact h
    | some src =>
      rw [putData]
      split
      · exact h
      · exact hP.putLoop h _ _ _ _
  | getData va val size =>
    rw [Vm.call]
    dsimp only
    cases val with
    | none => exact h
    | some dst =>
      rw [getData]
      split
      · exact h
      · exact hP.getLoop h _ _ _ _
  | translate va => exact hP.translate h _ _

end

/-- The pages `I` of `W` have been inserted since a certain moment, each of them once. -/
structure Warm (W I : Finset ℕ) (t : Tlb) : Prop where
  subset : I ⊆ W
  ring : ∃ base at? pa?, Ring (base + I.card) at? pa? t ∧
    ∀ v ∈ I, ∃ n, at? v = some n ∧ base ≤ n

section

variable {W I : Finset ℕ} {t : Tlb} {v : ℕ}

theorem Warm.start (h : t.IsRing) (W : Finset ℕ) : Warm W ∅ t := by
  obtain ⟨total, at?, pa?, hr⟩ := h
  exact ⟨Finset.empty_subset W, total, at?, pa?, hr, fun v hv => absurd hv (Finset.notMem_empty v)⟩

/-- Such a page is still there. -/
theorem Warm.found (h : Warm W I t) (hW : W.card ≤ tlbEntries) (hv : v ∈ I) : t.find v ≠ none := by
  obtain ⟨base, at?, pa?, hr, hat⟩ := h.ring
  obtain ⟨n, hn, hbase⟩ := hat v hv
  have hcard := Finset.card_le_card h.subset
  have hsome := (hr.find_isSome v).mpr ⟨n, hn, by omega⟩
  exact Option.ne_none_iff_isSome.mpr hsome

/-- A page that is not there was not inserted before. -/
theorem Warm.insert (h : Warm W I t) (hW : W.card ≤ tlbEntries) (hv : v ∈ W)
    (hf : t.find v = none) (pa pfn : ℕ) : Warm W (insert v I)
      (t.advance.setEntry t.victim { vpn := v, pfn := pfn, pte := pa, valid := true }) := by
  have hnew : v ∉ I := fun hmem => h.found hW hmem hf
  obtain ⟨base, at?, pa?, hr, hat⟩ := h.ring
  have hring := @Ring.insert _ _ _ _ hr v pa pfn hf
  rw [Nat.add_assoc, ← Finset.card_insert_of_notMem hnew] at hring
  refine ⟨Finset.insert_subset hv h.subset, base, _, _, hring, fun u hu => ?_⟩
  by_cases huv : u = v
  · rw [huv, update_self]
    exact ⟨_, rfl, Nat.le_add_right base _⟩
  · rw [update_of_ne huv]
    exact hat u (Finset.mem_of_mem_insert_of_ne hu huv)

end

/-- `translate` of a mapped page is a hit, or a miss and an insertion. -/
theorem translate_mapped {vm : Vm} (h : vm.Inv) {va : ℕ} (hva : va < 2 ^ 32)
    (hlast : va ≠ invalidPa) (hp : vm.space.page (va / 4096) ≠ 0) :
    (∃ i, translate vm vm.pageDir va = (vm.countLookup, some (.tlbSlot i))) ∨
    vm.tlbStore.find (va / 4096) = none ∧ ∃ q, translate vm vm.pageDir va
      = (vm.countLookup.countMiss.addTlb va (vm.space.page (va / 4096)), some q) := by
  rw [translate]
  cases hc : tlbCheck vm.tlbStore va with
  | some i => exact .inl ⟨i, rfl⟩
  | none =>
    rw [tlbCheck, if_neg hlast, shiftRight_12] at hc
    refine .inr ⟨hc, .pteAt (vm.loadPde vm.pageDir (pdx va) + 4 * ptx va), ?_⟩
    set vm₁ := vm.countLookup.countMiss with hvm₁
    have hd : vm₁.loadPde vm.pageDir (pdx va) ≠ 0 := by
      have hpde : vm₁.loadPde vm.pageDir (pdx va) = vm.space.dir (va / 4096 / 1024) :=
        Vm.loadPde_eq hva
      rw [hpde]
      exact h.wf.page_dir _ hp
    have hpte : vm₁.loadPte (vm₁.loadPde vm.pageDir (pdx va)) (ptx va)
        = vm.space.page (va / 4096) := Vm.walk_eq hva hd
    dsimp only
    rw [if_neg hd, hpte, if_neg hp]
    rfl

theorem count_succ (x : UInt64) (n : ℕ) : x + UInt64.ofNat n + 1 = x + UInt64.ofNat (n + 1) := by
  rw [UInt64.ofNat_add, UInt64.add_assoc]
  rfl

/-- What the accesses since `vm₀` have made of the counters: `I` are the pages that missed. -/
structure Since (W : Finset ℕ) (vm₀ vm : Vm) (I : Finset ℕ) (lookups : ℕ) : Prop where
  inv : vm.Inv
  space : vm.space = vm₀.space
  warm : Warm W I vm.tlbStore
  misses : vm.tlbMisses = vm₀.tlbMisses + UInt64.ofNat I.card
  lookups : vm.tlbLookups = vm₀.tlbLookups + UInt64.ofNat lookups

/-- A set of mapped pages that fits into the TLB. The last address of the last page is the one
that `TLB_check` refuses. -/
structure Fits (W : Finset ℕ) (vm₀ : Vm) : Prop where
  card : W.card ≤ tlbEntries
  mapped : ∀ v ∈ W, vm₀.space.page v ≠ 0
  last : 1048575 ∉ W

section

variable {W I : Finset ℕ} {vm₀ vm : Vm} {n : ℕ}

theorem Since.translate (h : Since W vm₀ vm I n) (hW : Fits W vm₀) {va : ℕ} (hva : va < 2 ^ 32)
    (hin : va / 4096 ∈ W) : (translate vm vm.pageDir va).2 ≠ none ∧
      ∃ I', Since W vm₀ (translate vm vm.pageDir va).1 I' (n + 1) := by
  have hp : vm.space.page (va / 4096) ≠ 0 := by
    rw [h.space]
    exact hW.mapped _ hin
  have hlast : va ≠ invalidPa := by
    rintro rfl
    exact hW.last hin
  have h0 : va ≠ 0 := by
    rintro rfl
    exact hp h.inv.wf.page_zero
  have hpa : vm.space.page (va / 4096) ≠ invalidPa := by
    have := (h.inv.wf.page_frame _ hp).1.2
    simp only [memSize, invalidPa] at this ⊢
    omega
  obtain ⟨hinv, hspace, -, -, hnone, -⟩ := Vm.translate_spec h.inv hva
  have hsp := hspace.trans h.space
  refine ⟨fun hn => hp (hnone.mp hn), ?_⟩
  have hlookups : vm.tlbLookups + 1 = vm₀.tlbLookups + UInt64.ofNat (n + 1) := by
    rw [h.lookups, count_succ]
  obtain ⟨i, hi⟩ | ⟨hf, q, hq⟩ := translate_mapped h.inv hva hlast hp
  · -- a hit: one more lookup
    rw [hi] at hinv hsp ⊢
    refine ⟨I, hinv, hsp, ?_, ?_, ?_⟩
    · rw [countLookup_tlbStore]
      exact h.warm
    · exact h.misses
    · exact hlookups
  · -- a miss of a page that has not missed before
    rw [hq] at hinv hsp ⊢
    have hnew : va / 4096 ∉ I := fun hmem => h.warm.found hW.card hmem hf
    refine ⟨insert (va / 4096) I, hinv, hsp, ?_, ?_, ?_⟩
    · have hf' : vm.tlbStore.find (va >>> pfnShift) = none := by
        rw [shiftRight_12]
        exact hf
      rw [addTlb_tlbStore, countMiss_tlbStore, countLookup_tlbStore,
        tlbAdd_of_find_none h0 hpa hf', shiftRight_12]
      exact h.warm.insert hW.card hin hf _ _
    · dsimp only [Vm.addTlb, Vm.countMiss, Vm.countLookup]
      rw [h.misses, Finset.card_insert_of_notMem hnew, count_succ]
    · exact hlookups

/-- The pages that `n` bytes from `va` on touch. -/
def pagesTouched (va n : ℕ) : ℕ := if n = 0 then 0 else (va % 4096 + n + 4095) / 4096

theorem pagesTouched_chunk {va n : ℕ} (hn : n ≠ 0) : pagesTouched va n
    = 1 + pagesTouched ((va + bytesToCopy va n) % 2 ^ 32) (n - bytesToCopy va n) := by
  rw [pagesTouched, pagesTouched, if_neg hn, bytesToCopy_eq]
  split <;> omega

/-- The first page of an access, and the pages behind the first chunk. -/
theorem pages_chunk {va size : ℕ} (hva : va < 2 ^ 32) (h0 : size ≠ 0)
    (hin : ∀ k < size, (va + k) % 2 ^ 32 / 4096 ∈ W) : va / 4096 ∈ W ∧
      ∀ k < size - bytesToCopy va size,
        ((va + bytesToCopy va size) % 2 ^ 32 + k) % 2 ^ 32 / 4096 ∈ W := by
  constructor
  · have hfirst := hin 0 (by omega)
    rwa [Nat.add_zero, Nat.mod_eq_of_lt hva] at hfirst
  · intro k hk
    rw [Nat.mod_add_mod, Nat.add_assoc]
    exact hin _ (by omega)

/-- The `memcpy` of `put_data` leaves the TLB and the counters alone. -/
theorem Since.memcpy (h : Since W vm₀ vm I n) (hW : Fits W vm₀) {va size : ℕ} (src : Bytes)
    (hva : va < 2 ^ 32) (h0 : size ≠ 0) (hin : va / 4096 ∈ W) :
    Since W vm₀ { vm with
      physMem := memcpy vm.physMem (vm.space.page (va / 4096) + off va) src
        (bytesToCopy va size) } I n := by
  have hp : vm.space.page (va / 4096) ≠ 0 := by
    rw [h.space]
    exact hW.mapped _ hin
  have hsp := (@Vm.flat_memcpy _ h.inv.toPageInv va size src hva h0 hp).1
  rw [off_eq]
  exact ⟨⟨⟨h.inv.pageDir, by rw [hsp]; exact h.inv.wf⟩, by rw [hsp]; exact h.inv.tlb⟩,
    hsp.trans h.space, h.warm, h.misses, h.lookups⟩

theorem Since.putLoop (h : Since W vm₀ vm I n) (hW : Fits W vm₀) (src : Bytes) (done : ℕ)
    {va size : ℕ} (hva : va < 2 ^ 32) (hin : ∀ k < size, (va + k) % 2 ^ 32 / 4096 ∈ W) :
    ∃ I', Since W vm₀ (putLoop vm src done va size).1 I' (n + pagesTouched va size) := by
  induction size using Nat.strong_induction_on generalizing vm I n done va with
  | _ size ih =>
    rw [MyVm.putLoop]
    by_cases h0 : size = 0
    · rw [if_pos h0, pagesTouched, if_pos h0]
      exact ⟨I, h⟩
    · rw [if_neg h0]
      have hpos := bytesToCopy_pos va h0
      obtain ⟨hfirst, hrest⟩ := pages_chunk hva h0 hin
      obtain ⟨hne, I', hI'⟩ := h.translate hW hva hfirst
      have hderef := (Vm.translate_spec h.inv hva).2.2.2.2.2
      have hsp := (Vm.translate_spec h.inv hva).2.1
      cases ht : MyVm.translate vm vm.pageDir va with
      | mk vm₁ o =>
        rw [ht] at hne hI' hderef hsp
        cases o with
        | none => exact absurd rfl hne
        | some q =>
          dsimp only at hI' hderef hsp ⊢
          rw [hderef q rfl, ← hsp]
          obtain ⟨J, hJ⟩ := ih (size - bytesToCopy va size) (by omega)
            (hI'.memcpy hW (fun k => src (done + k)) hva h0 hfirst) (done + bytesToCopy va size)
            (show (va + bytesToCopy va size) % 2 ^ 32 < 2 ^ 32 by omega) hrest
          refine ⟨J, ?_⟩
          rw [pagesTouched_chunk h0, ← Nat.add_assoc]
          exact hJ

theorem Since.getLoop (h : Since W vm₀ vm I n) (hW : Fits W vm₀) (dst : Bytes) (done : ℕ)
    {va size : ℕ} (hva : va < 2 ^ 32) (hin : ∀ k < size, (va + k) % 2 ^ 32 / 4096 ∈ W) :
    ∃ I', Since W vm₀ (getLoop vm dst done va size).1 I' (n + pagesTouched va size) := by
  induction size using Nat.strong_induction_on generalizing vm I n dst done va with
  | _ size ih =>
    rw [MyVm.getLoop]
    by_cases h0 : size = 0
    · rw [if_pos h0, pagesTouched, if_pos h0]
      exact ⟨I, h⟩
    · rw [if_neg h0]
      have hpos := bytesToCopy_pos va h0
      obtain ⟨hfirst, hrest⟩ := pages_chunk hva h0 hin
      obtain ⟨hne, I', hI'⟩ := h.translate hW hva hfirst
      cases ht : MyVm.translate vm vm.pageDir va with
      | mk vm₁ o =>
        rw [ht] at hne hI'
        cases o with
        | none => exact absurd rfl hne
        | some q =>
          dsimp only at hI' ⊢
          obtain ⟨J, hJ⟩ := ih (size - bytesToCopy va size) (by omega) hI' _
            (done + bytesToCopy va size)
            (show (va + bytesToCopy va size) % 2 ^ 32 < 2 ^ 32 by omega) hrest
          refine ⟨J, ?_⟩
          rw [pagesTouched_chunk h0, ← Nat.add_assoc]
          exact hJ

end

/-- The size of the access, `0` for a call that returns at once. -/
def accessSize (val : Option Bytes) (size : Int32) : ℕ := if val.isSome then size.toInt.toNat else 0

/-- The call accesses pages of `W` only. -/
def Call.Within (W : Finset ℕ) : Call → Prop
  | .putData va val size => ∀ k < accessSize val size, (va.toNat + k) % 2 ^ 32 / 4096 ∈ W
  | .getData va val size => ∀ k < accessSize val size, (va.toNat + k) % 2 ^ 32 / 4096 ∈ W
  | .translate va => va.toNat / 4096 ∈ W
  | .nMalloc _ => False
  | .nFree _ _ => False

/-- How often the call looks into the TLB: once for every page it touches. -/
def Call.lookups : Call → ℕ
  | .putData va val size => pagesTouched va.toNat (accessSize val size)
  | .getData va val size => pagesTouched va.toNat (accessSize val size)
  | .translate _ => 1
  | .nMalloc _ => 0
  | .nFree _ _ => 0

section

variable {W I : Finset ℕ} {vm₀ vm : Vm} {n : ℕ}

theorem Since.call (h : Since W vm₀ vm I n) (hW : Fits W vm₀) {c : Call} (hc : c.Within W) :
    ∃ I', Since W vm₀ (vm.call c).1 I' (n + c.lookups) := by
  cases c with
  | nMalloc numBytes => exact absurd hc id
  | nFree va size => exact absurd hc id
  | translate va => exact (h.translate hW va.toNat_lt hc).2
  | putData va val size =>
    rw [Vm.call]
    dsimp only
    cases val with
    | none => exact ⟨I, h⟩
    | some src =>
      rw [putData]
      split
      · next hle =>
        have h0 : accessSize (some src) size = 0 := by
          change size.toInt.toNat = 0
          omega
        rw [Call.lookups, h0]
        exact ⟨I, h⟩
      · exact h.putLoop hW src 0 va.toNat_lt hc
  | getData va val size =>
    rw [Vm.call]
    dsimp only
    cases val with
    | none => exact ⟨I, h⟩
    | some dst =>
      rw [getData]
      split
      · next hle =>
        have h0 : accessSize (some dst) size = 0 := by
          change size.toInt.toNat = 0
          omega
        rw [Call.lookups, h0]
        exact ⟨I, h⟩
      · exact h.getLoop hW dst 0 va.toNat_lt hc

theorem Since.calls (h : Since W vm₀ vm I n) (hW : Fits W vm₀) {cs : List Call}
    (hcs : ∀ c ∈ cs, c.Within W) :
    ∃ I', Since W vm₀ (vm.calls cs) I' (n + (cs.map Call.lookups).sum) := by
  induction cs generalizing vm I n with
  | nil => exact ⟨I, h⟩
  | cons c cs ih =>
    obtain ⟨J, hJ⟩ := h.call hW (hcs c List.mem_cons_self)
    rw [List.map_cons, List.sum_cons, ← Nat.add_assoc]
    exact ih hJ fun c' hc' => hcs c' (List.mem_cons_of_mem _ hc')

end

end MyVm
