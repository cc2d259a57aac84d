import Cs416.Lib.Lts
import Cs416.Vm.Data
import Cs416.Vm.Capacity

/-!
# Runs of the library and frame isolation

`library heap` is the labelled transition system of a single-threaded program that uses the
library: a label is a call with its result, the initial state is the process before
`set_physical_mem`, and `heap` is the content of the block that `malloc` returns there.

The joint invariant `Vm.Inv` survives every call but one. `TLB_invalidate` refuses the
address `0xFFFFFFFF`, so an `n_free` that reaches the last page through that address leaves
the entry of the page in the TLB. `KeepsTlb` is the side condition that excludes those
calls, and `library_inv` is the invariant of every run that meets it. A page-aligned
`n_free` always does.

The main result is `frame_isolation`, the invariant on the bytes of the page directory, the
page tables and the bitmaps.
-/

open ByteMem Lts

namespace MyVm

/-- The library under an arbitrary sequence of calls. -/
def library (heap : Bytes) : System Process (Call × Result) where
  init p := p = none
  step p l p' := call heap p l.1 = some (p', l.2)

/-- The addresses passed to `n_free` are page-aligned. -/
def Call.Aligned : Call → Prop
  | .nFree va _ => va.toNat % pgSize = 0
  | _ => True

/-- `n_free` handles the address `0xFFFFFFFF` in one of its iterations. -/
def Call.VisitsInvalidPa : Call → Prop
  | .nFree va size =>
    ∃ k < roundUpPages (u32 size.toInt), (va.toNat + k * pgSize) % 2 ^ 32 = invalidPa
  | _ => False

/-- The call does not handle `0xFFFFFFFF` in `n_free` while the TLB holds an entry for the
last page. -/
def KeepsTlb : Process → Call → Prop
  | some vm, c => c.VisitsInvalidPa → vm.tlbStore.find (invalidPa >>> pfnShift) = none
  | none, _ => True

theorem Call.Aligned.keepsTlb {c : Call} (h : c.Aligned) (p : Process) : KeepsTlb p c := by
  cases p with
  | none => trivial
  | some vm =>
    intro hv
    cases c with
    | nFree va size =>
      obtain ⟨k, -, he⟩ := hv
      simp only [Call.Aligned, pgSize, invalidPa] at h he
      omega
    | _ => exact hv.elim

/-! ### The state after `set_physical_mem` -/

theorem setPhysicalMem_spec (heap : Bytes) :
    (setPhysicalMem heap).pageDir = 0 ∧ (setPhysicalMem heap).tlbStore = Tlb.empty ∧
      (setPhysicalMem heap).space = Space.initial := by
  set vm : Vm :=
    { physMem := heap, pageDir := 0, physBitmap := fun _ => 0, virtBitmap := fun _ => 0,
      tlbStore := Tlb.empty, tlbLookups := 0, tlbMisses := 0 } with hvm
  -- every bit is clear, so the directory takes frame `0`
  have hbit : ∀ i, bit (fun _ => 0) i = false := fun i => Nat.zero_testBit _
  have hfirst : Scan.firstIdx (fun pfn => getBit vm.physBitmap pfn == 0) 0 numPhysPages = some 0 :=
    Scan.firstIdx_eq_some.mpr ⟨le_rfl, by simp only [numPhysPages, memSize, pgSize]; omega, by
      rw [getBit_eq, hbit]; rfl, fun j _ hj => absurd hj (Nat.not_lt_zero _)⟩
  have hset : setPhysicalMem heap = { (vm.setPhysBit 0).zeroPage 0 with pageDir := 0 } := by
    rw [setPhysicalMem, ← hvm]
    dsimp only
    rw [allocatePhysPage, hfirst]
    rfl
  have hdir : (setPhysicalMem heap).space.dir = fun _ => 0 := by
    funext i
    by_cases hi : i < 1024
    · rw [Vm.space_dir hi, hset]
      exact load32_memset_zero _ (by omega) (by simp only [pgSize]; omega)
    · exact Vm.space_dir_of_le (by omega)
  refine ⟨by rw [hset], by rw [hset]; rfl, Space.ext hdir ?_ ?_ ?_⟩
  · funext v
    exact Vm.space_page_of_dir (congrFun hdir _)
  · rw [hset]
    change bit (setBit (fun _ => 0) 0) = Function.update (fun _ => false) 0 true
    rw [bit_setBit, show bit (fun _ => 0) = fun _ => false from funext hbit]
  · rw [hset]
    exact funext hbit

theorem setPhysicalMem_inv (heap : Bytes) : (setPhysicalMem heap).Inv := by
  obtain ⟨hd, ht, hs⟩ := setPhysicalMem_spec heap
  refine ⟨⟨hd, ?_⟩, ?_⟩
  · rw [hs]
    exact Space.initial_wf
  · rw [ht]
    exact TlbOk.empty _

/-! ### The invariant of every run -/

theorem find_tlbInvalidate {t : Tlb} {vpn : ℕ} (h : t.find vpn = none) (va : ℕ) :
    (tlbInvalidate t va).find vpn = none := by
  unfold tlbInvalidate
  split
  · exact h
  split
  · next i hi =>
    -- only the valid bit of slot `i` changes
    refine Scan.firstIdx_eq_none.mpr fun j _ hj => ?_
    by_cases hji : j = i
    · rw [hji, Tlb.setEntry_entries, Function.update_self]
      rfl
    · rw [Tlb.setEntry_entries, Function.update_of_ne hji]
      exact Scan.firstIdx_eq_none.mp h j (by omega) (by omega)
  · exact h

namespace Vm

variable {vm : Vm}

/-- `n_free` adds no TLB entry. -/
theorem find_freePages (hw : vm.PageInv) {vpn : ℕ} (h : vm.tlbStore.find vpn = none) (va n : ℕ) :
    (freePages vm va n).tlbStore.find vpn = none := by
  induction n with
  | zero => exact h
  | succ n ih =>
    obtain ⟨-, hw', -⟩ := space_freePages hw va n
    obtain ⟨-, -, -, ht⟩ := @space_freePage _ hw' ((va + n * pgSize) % 2 ^ 32)
      (Nat.mod_lt _ (by decide))
    rw [freePages, ht]
    split
    · exact ih
    · exact find_tlbInvalidate ih _

theorem nFree_inv (h : vm.Inv) {va : UInt32} {size : Int32}
    (hc : KeepsTlb (some vm) (.nFree va size)) : (nFree vm va.toNat size.toInt).Inv := by
  refine freePages_inv h fun k hk he => ?_
  rw [← shiftRight_12]
  exact find_freePages h.toPageInv (hc ⟨k, hk, he⟩) _ _

/-- `put_data` keeps the invariant and the address space. -/
theorem putData_inv (h : vm.Inv) (va : UInt32) (val : Option Bytes) (size : Int32) :
    (putData vm va.toNat val size.toInt).1.Inv ∧
      (putData vm va.toNat val size.toInt).1.space = vm.space := by
  cases val with
  | none => exact ⟨h, rfl⟩
  | some src =>
    rw [putData]
    split
    · exact ⟨h, rfl⟩
    · obtain ⟨hi, hs, -⟩ := putLoop_spec h src 0 (n := size.toInt.toNat) va.toNat_lt
        (by have := size.toInt_lt; omega)
      exact ⟨hi, hs⟩

/-- `get_data` keeps the invariant and the address space. -/
theorem getData_inv (h : vm.Inv) (va : UInt32) (val : Option Bytes) (size : Int32) :
    (getData vm va.toNat val size.toInt).1.Inv ∧
      (getData vm va.toNat val size.toInt).1.space = vm.space := by
  cases val with
  | none => exact ⟨h, rfl⟩
  | some dst =>
    rw [getData]
    split
    · exact ⟨h, rfl⟩
    · obtain ⟨hi, hs, -⟩ := getLoop_spec h dst 0 (n := size.toInt.toNat) va.toNat_lt
      exact ⟨hi, hs⟩

/-- **Every call keeps the joint invariant**, as long as it keeps the TLB coherent. -/
theorem call_inv (h : vm.Inv) {c : Call} (hc : KeepsTlb (some vm) c) : (vm.call c).1.Inv := by
  cases c with
  | nMalloc numBytes =>
    rw [Vm.call]
    split
    · exact h
    · exact (space_nMalloc h _).2.2.1
  | nFree va size => exact nFree_inv h hc
  | putData va val size => exact (putData_inv h va val size).1
  | getData va val size => exact (getData_inv h va val size).1
  | translate va => exact (translate_spec h va.toNat_lt).1

end Vm

/-- A call on the address space: only `n_malloc` and `n_free` change it. -/
def Space.call (s : Space) : Call → Space
  | .nMalloc numBytes => if numBytes = 0 then s else (s.malloc (roundUpPages numBytes.toNat)).1
  | .nFree va size => s.freePages (va.toNat / 4096) (roundUpPages (u32 size.toInt))
  | _ => s

/-- **Every call acts on the address space** as its abstract counterpart. -/
theorem Vm.space_call {vm : Vm} (h : vm.Inv) (c : Call) :
    (vm.call c).1.space = vm.space.call c := by
  cases c with
  | nMalloc numBytes =>
    rw [Vm.call, Space.call]
    split
    · rfl
    · exact (space_nMalloc h _).1
  | nFree va size => exact (space_nFree h.toPageInv _ _).1
  | putData va val size => exact (putData_inv h va val size).2
  | getData va val size => exact (getData_inv h va val size).2
  | translate va => exact (translate_spec h va.toNat_lt).2.1

/-- The invariant of a process: nothing before initialisation. -/
def Process.Inv (p : Process) : Prop := ∀ vm, p = some vm → vm.Inv

/-- A call before initialisation that returns leaves the process alone, unless it is a
nonzero `n_malloc`, which acts on the memory that `set_physical_mem` sets up. -/
theorem callUninit_cases {heap : Bytes} {c : Call} {p' : Process} {r : Result}
    (h : callUninit heap c = some (p', r)) :
    p' = none ∨ ∃ numBytes, c = .nMalloc numBytes ∧ numBytes ≠ 0 ∧
      p' = some ((setPhysicalMem heap).call c).1 ∧ r = ((setPhysicalMem heap).call c).2 := by
  cases c with
  | nMalloc numBytes =>
    -- `numBytes = 0` returns in front of `set_physical_mem`
    rw [callUninit] at h
    split at h
    · cases h
      exact Or.inl rfl
    · next hn =>
      cases h
      exact Or.inr ⟨numBytes, rfl, hn, rfl, rfl⟩
  | nFree va size =>
    -- only a page count of `0` keeps the loop from reading `page_dir`
    rw [callUninit] at h
    split at h
    · cases h
      exact Or.inl rfl
    · exact absurd h (by simp)
  | putData va val size =>
    rw [callUninit] at h
    split at h
    · cases h
      exact Or.inl rfl
    · exact absurd h (by simp)
  | getData va val size =>
    rw [callUninit] at h
    split at h
    · cases h
      exact Or.inl rfl
    · exact absurd h (by simp)
  | translate va => exact absurd h (by simp [callUninit])

/-- One call keeps the invariant of the process. -/
theorem call_inv {heap : Bytes} {p p' : Process} {c : Call} {r : Result} (h : p.Inv)
    (hc : KeepsTlb p c) (hs : call heap p c = some (p', r)) : p'.Inv := by
  intro vm' hp'
  cases p with
  | some vm =>
    rw [call] at hs
    cases hs
    cases hp'
    exact Vm.call_inv (h vm rfl) hc
  | none =>
    obtain rfl | ⟨numBytes, rfl, hn, rfl, -⟩ := callUninit_cases hs
    · cases hp'
    · cases hp'
      exact Vm.call_inv (setPhysicalMem_inv heap) fun hv => hv.elim

/-- The steps that keep the TLB coherent. -/
def coherentCalls (heap : Bytes) : System Process (Call × Result) :=
  (library heap).restrict fun p l => KeepsTlb p l.1

/-- The steps whose `n_free` is page-aligned. -/
def alignedCalls (heap : Bytes) : System Process (Call × Result) :=
  (library heap).restrict fun _ l => l.1.Aligned

theorem library_inv {heap : Bytes} {ls : List (Call × Result)} {p : Process}
    (hr : Run (coherentCalls heap) ls p) : p.Inv := by
  refine hr.invariant (I := Process.Inv) ?_ ?_
  · intro s hs vm hvm
    rw [show s = none from hs] at hvm
    cases hvm
  · intro s l s' hI hs
    exact call_inv hI hs.2 hs.1

theorem alignedCalls_coherent {heap : Bytes} {ls : List (Call × Result)} {p : Process}
    (hr : Run (alignedCalls heap) ls p) : Run (coherentCalls heap) ls p := by
  induction hr with
  | start h => exact .start h
  | step _ hs ih => exact ih.step ⟨hs.1, hs.2.keepsTlb _⟩

/-- A nonzero `n_malloc` initialises the process. -/
theorem call_first (heap : Bytes) {numBytes : UInt32} (h : numBytes ≠ 0) :
    call heap none (.nMalloc numBytes)
      = some (some ((setPhysicalMem heap).call (.nMalloc numBytes)).1,
        ((setPhysicalMem heap).call (.nMalloc numBytes)).2) := by
  rw [call, callUninit, if_neg h]

/-! ### Frame isolation on the bytes -/

namespace Vm

/-- Entry `i` of the page directory. -/
def pde (vm : Vm) (i : ℕ) : ℕ := vm.loadPde vm.pageDir i

/-- Entry `j` of the table of directory entry `i`. -/
def pte (vm : Vm) (i j : ℕ) : ℕ := vm.loadPte (vm.pde i) j

/-- A page-aligned address below `MEMSIZE` whose frame is marked in `phys_bitmap`. -/
structure MarkedFrame (vm : Vm) (pa : ℕ) : Prop where
  aligned : pa % pgSize = 0
  lt : pa < memSize
  marked : getBit vm.physBitmap (pa / pgSize) = 1

/-- Frame isolation, read off the page directory, the existing page tables and the bitmaps.
Frame `0`, the frames of the tables and the frames of the pages are pairwise distinct. -/
structure FrameIsolation (vm : Vm) : Prop where
  directory : vm.pageDir = 0 ∧ getBit vm.physBitmap 0 = 1
  pde_frame : ∀ i < 1024, vm.pde i ≠ 0 → vm.MarkedFrame (vm.pde i)
  pte_frame : ∀ i < 1024, ∀ j < 1024, vm.pde i ≠ 0 → vm.pte i j ≠ 0 → vm.MarkedFrame (vm.pte i j)
  pde_inj : ∀ i < 1024, ∀ i' < 1024, vm.pde i ≠ 0 → vm.pde i = vm.pde i' → i = i'
  pte_inj : ∀ i < 1024, ∀ j < 1024, ∀ i' < 1024, ∀ j' < 1024, vm.pde i ≠ 0 → vm.pde i' ≠ 0 →
    vm.pte i j ≠ 0 → vm.pte i j = vm.pte i' j' → i = i' ∧ j = j'
  pde_ne_pte : ∀ i < 1024, ∀ i' < 1024, ∀ j' < 1024, vm.pde i ≠ 0 → vm.pde i' ≠ 0 →
    vm.pde i ≠ vm.pte i' j'
  mapped_taken : ∀ i < 1024, ∀ j < 1024, vm.pde i ≠ 0 → vm.pte i j ≠ 0 →
    getBit vm.virtBitmap (1024 * i + j) = 1
  page_zero : vm.pde 0 ≠ 0 → vm.pte 0 0 = 0
  table_nonempty : ∀ i < 1024, vm.pde i ≠ 0 → ∃ j < 1024, vm.pte i j ≠ 0

variable {vm : Vm}

theorem pde_eq {i : ℕ} (hi : i < 1024) : vm.pde i = vm.space.dir i := (space_dir hi).symm

theorem pte_eq {i j : ℕ} (hi : i < 1024) (hj : j < 1024) (hd : vm.pde i ≠ 0) :
    vm.pte i j = vm.space.page (1024 * i + j) := by
  rw [pde_eq hi] at hd
  rw [pte, pde_eq hi, loadPte_dir hi hj hd]

theorem getBit_eq_one {bitmap : Bytes} {i : ℕ} : getBit bitmap i = 1 ↔ bit bitmap i = true := by
  rw [getBit_eq]
  cases bit bitmap i <;> simp

theorem getBit_eq_zero {bitmap : Bytes} {i : ℕ} : getBit bitmap i = 0 ↔ bit bitmap i = false := by
  rw [getBit_eq]
  cases bit bitmap i <;> simp

theorem MarkedFrame.of_isFrame {pa : ℕ} (hf : IsFrame pa)
    (hu : vm.space.used (pa / 4096) = true) : vm.MarkedFrame pa :=
  ⟨hf.1, hf.2, getBit_eq_one.mpr hu⟩

/-- The invariant of the address space is frame isolation of the bytes. -/
theorem PageInv.frameIsolation (h : vm.PageInv) : vm.FrameIsolation where
  directory := ⟨h.pageDir, getBit_eq_one.mpr h.wf.frame_zero⟩
  -- entry by entry, through the value that `space` reads off the bytes
  pde_frame i hi hd := by
    rw [pde_eq hi] at hd ⊢
    exact .of_isFrame (h.wf.dir_frame i hd).1 (h.wf.dir_frame i hd).2
  pte_frame i hi j hj hd hp := by
    rw [pte_eq hi hj hd] at hp ⊢
    exact .of_isFrame (h.wf.page_frame _ hp).1 (h.wf.page_frame _ hp).2
  pde_inj i hi i' hi' hd he := by
    rw [pde_eq hi] at hd he
    rw [pde_eq hi'] at he
    exact h.wf.dir_inj i i' hd he
  pte_inj i hi j hj i' hi' j' hj' hd hd' hp he := by
    rw [pte_eq hi hj hd] at hp he
    rw [pte_eq hi' hj' hd'] at he
    have := h.wf.page_inj _ _ hp he
    omega
  pde_ne_pte i hi i' hi' j' hj' hd hd' := by
    rw [pte_eq hi' hj' hd', pde_eq hi]
    rw [pde_eq hi] at hd
    exact h.wf.dir_ne_page i _ hd
  mapped_taken i hi j hj hd hp := by
    rw [pte_eq hi hj hd] at hp
    exact getBit_eq_one.mpr (h.wf.page_taken _ hp)
  page_zero hd := by
    rw [pte_eq (by decide) (by decide) hd]
    exact h.wf.page_zero
  table_nonempty i hi hd := by
    obtain ⟨v, hvi, hv⟩ := h.wf.dir_nonempty i (by rwa [pde_eq hi] at hd)
    refine ⟨v % 1024, Nat.mod_lt _ (by decide), ?_⟩
    rw [pte_eq hi (Nat.mod_lt _ (by decide)) hd, show 1024 * i + v % 1024 = v by omega]
    exact hv

end Vm

/-- **Frame isolation** holds in every initialised state that any sequence of calls reaches,
whatever the outcomes, provided that the addresses passed to `n_free` are page-aligned. -/
theorem frame_isolation (heap : Bytes) {ls : List (Call × Result)} {vm : Vm}
    (hr : Run (alignedCalls heap) ls (some vm)) : vm.FrameIsolation :=
  (library_inv (alignedCalls_coherent hr) vm rfl).toPageInv.frameIsolation

/-- The state after a first allocation of `numBytes` bytes. -/
def afterFirst (heap : Bytes) (numBytes : UInt32) : Vm :=
  ((setPhysicalMem heap).call (.nMalloc numBytes)).1

theorem space_afterFirst (heap : Bytes) (numBytes : UInt32) :
    (afterFirst heap numBytes).space = Space.initial.call (.nMalloc numBytes) := by
  rw [afterFirst, Vm.space_call (setPhysicalMem_inv heap), (setPhysicalMem_spec heap).2.2]

theorem run_first (heap : Bytes) {numBytes : UInt32} (h : numBytes ≠ 0) :
    Run (alignedCalls heap)
      [(.nMalloc numBytes, ((setPhysicalMem heap).call (.nMalloc numBytes)).2)]
      (some (afterFirst heap numBytes)) :=
  Run.step (.start rfl) ⟨call_first heap h, trivial⟩

/-- The memory after a sequence of calls. -/
def Vm.calls (vm : Vm) (cs : List Call) : Vm := cs.foldl (fun vm c => (vm.call c).1) vm

theorem Vm.calls_nil (vm : Vm) : vm.calls [] = vm := rfl

theorem Vm.calls_cons (vm : Vm) (c : Call) (cs : List Call) :
    vm.calls (c :: cs) = (vm.call c).1.calls cs := rfl

theorem Vm.calls_append (vm : Vm) (cs cs' : List Call) :
    vm.calls (cs ++ cs') = (vm.calls cs).calls cs' := List.foldl_append

/-- A sequence of calls extends a run. -/
theorem run_calls {heap : Bytes} {ls : List (Call × Result)} {vm : Vm}
    (hr : Run (library heap) ls (some vm)) (cs : List Call) :
    ∃ ls', ls'.map Prod.fst = ls.map Prod.fst ++ cs ∧
      Run (library heap) ls' (some (vm.calls cs)) := by
  induction cs generalizing ls vm with
  | nil => exact ⟨ls, (List.append_nil _).symm, hr⟩
  | cons c cs ih =>
    have hstep : Run (library heap) (ls ++ [(c, (vm.call c).2)]) (some (vm.call c).1) :=
      hr.step rfl
    obtain ⟨ls', he, hr'⟩ := ih hstep
    refine ⟨ls', ?_, hr'⟩
    rw [he, List.map_append, List.append_assoc]
    rfl

/-- The invariant and the address space after a sequence of page-aligned calls. -/
theorem Vm.Inv.calls {vm : Vm} (h : vm.Inv) {cs : List Call} (hc : ∀ c ∈ cs, c.Aligned) :
    (vm.calls cs).Inv ∧ (vm.calls cs).space = cs.foldl Space.call vm.space := by
  induction cs generalizing vm with
  | nil => exact ⟨h, rfl⟩
  | cons c cs ih =>
    have := ih (Vm.call_inv h ((hc c (List.mem_cons_self ..)).keepsTlb _))
      fun c' hc' => hc c' (List.mem_cons_of_mem _ hc')
    rw [Vm.space_call h] at this
    exact this

theorem Space.call_nMalloc (s : Space) {numBytes : UInt32} {n : ℕ} (h0 : numBytes ≠ 0)
    (hn : roundUpPages numBytes.toNat = n) : s.call (.nMalloc numBytes) = (s.malloc n).1 := by
  rw [Space.call, if_neg h0, hn]

theorem Space.call_nFree_page (s : Space) {va : UInt32} {size : Int32} {v : ℕ}
    (hv : va.toNat / 4096 = v) (hn : roundUpPages (u32 size.toInt) = 1) (hlt : v < numVirtPages) :
    s.call (.nFree va size) = s.freePage v := by
  rw [Space.call, hv, hn, Space.freePages, Space.freePages, Nat.add_zero, Nat.mod_eq_of_lt hlt]

/-- Frame isolation after a first allocation of one byte. -/
theorem frame_isolation_first : (afterFirst (fun _ => 0) 1).FrameIsolation :=
  frame_isolation _ (run_first (fun _ => 0) (by decide))

end MyVm
