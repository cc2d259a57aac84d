import Cs416.Vm.Model
import Cs416.Vm.Space

/-!
# The bytes implement the address space

`Vm.space` reads the page directory and the page tables out of the byte array and the
bitmaps out of theirs. Under frame isolation each function of `my_vm.c` acts on that
address space as its abstract counterpart does: `space_allocatePhysPage`, `space_mapPage`,
`space_freePage`, and `space_translate` for the walk.

The directory, the tables and the data pages share one array, so every lemma is about a
write to one frame and the reads of the others. `Keeps P vm vm'` is the frame condition for
data: the mapped pages in `P` stay mapped to the same frame and keep their bytes.
-/

open ByteMem Scan

namespace MyVm

namespace Vm

/-- The two-level walk of the page with number `v`: `page_dir[v / 1024]`, then entry
`v % 1024` of the table. It is `0` when either entry is. -/
def walkPage (vm : Vm) (v : ℕ) : ℕ :=
  let pde := vm.loadPde vm.pageDir (v / 1024)
  if pde = 0 then 0 else vm.loadPte pde (v % 1024)

/-- The address space the bytes hold. -/
def space (vm : Vm) : Space where
  dir i := if i < 1024 then vm.loadPde vm.pageDir i else 0
  page v := if v < numVirtPages then vm.walkPage v else 0
  used := bit vm.physBitmap
  taken := bit vm.virtBitmap

/-- The directory is frame `0` and the address space is well-formed. -/
structure PageInv (vm : Vm) : Prop where
  pageDir : vm.pageDir = 0
  wf : vm.space.WF

/-- The mapped pages in `P` stay mapped to the same frame and keep their contents. -/
def Keeps (P : ℕ → Prop) (vm vm' : Vm) : Prop :=
  ∀ v, P v → vm.space.page v ≠ 0 → vm'.space.page v = vm.space.page v ∧
    Agree vm.physMem vm'.physMem (vm.space.page v) pgSize

theorem Keeps.refl (P : ℕ → Prop) (vm : Vm) : Keeps P vm vm :=
  fun _ _ _ => ⟨rfl, Agree.refl _ _ _⟩

theorem Keeps.trans {P : ℕ → Prop} {vm₁ vm₂ vm₃ : Vm} (h₁ : Keeps P vm₁ vm₂)
    (h₂ : Keeps P vm₂ vm₃) : Keeps P vm₁ vm₃ := by
  intro v hP hv
  obtain ⟨hp, ha⟩ := h₁ v hP hv
  obtain ⟨hp', ha'⟩ := h₂ v hP (by rw [hp]; exact hv)
  rw [hp] at hp' ha'
  exact ⟨hp', ha.trans ha'⟩

theorem Keeps.mono {P Q : ℕ → Prop} {vm vm' : Vm} (h : Keeps P vm vm')
    (hPQ : ∀ v, Q v → vm.space.page v ≠ 0 → P v) : Keeps Q vm vm' :=
  fun v hQ hv => h v (hPQ v hQ hv) hv

/-! ### Reading the space -/

section Read

variable {vm : Vm}

theorem space_dir {i : ℕ} (hi : i < 1024) : vm.space.dir i = vm.loadPde vm.pageDir i := if_pos hi

theorem space_dir_of_le {i : ℕ} (hi : 1024 ≤ i) : vm.space.dir i = 0 := if_neg (by omega)

theorem space_page {v : ℕ} (hv : v < numVirtPages) : vm.space.page v = vm.walkPage v := if_pos hv

theorem space_page_of_le {v : ℕ} (hv : numVirtPages ≤ v) : vm.space.page v = 0 :=
  if_neg (by omega)

@[simp] theorem space_used : vm.space.used = bit vm.physBitmap := rfl

@[simp] theorem setPhysBit_page (f : ℕ) : (vm.setPhysBit f).space.page = vm.space.page := rfl

@[simp] theorem setPhysBit_dir (f : ℕ) : (vm.setPhysBit f).space.dir = vm.space.dir := rfl

theorem div_lt_of_lt_numVirtPages {v : ℕ} (hv : v < numVirtPages) : v / 1024 < 1024 := by
  simp only [numVirtPages, maxMemSize, pgSize] at hv
  omega

/-- An entry of an existing table is the page map at that index. -/
theorem loadPte_dir {i j : ℕ} (hi : i < 1024) (hj : j < 1024) (hd : vm.space.dir i ≠ 0) :
    vm.loadPte (vm.space.dir i) j = vm.space.page (1024 * i + j) := by
  have hlt : 1024 * i + j < numVirtPages := by
    simp only [numVirtPages, maxMemSize, pgSize]
    omega
  rw [space_page hlt, walkPage, show (1024 * i + j) / 1024 = i by omega,
    show (1024 * i + j) % 1024 = j by omega]
  rw [space_dir hi] at hd ⊢
  rw [if_neg hd]

/-- An unmapped table has no mapped page. -/
theorem space_page_of_dir {v : ℕ} (hd : vm.space.dir (v / 1024) = 0) : vm.space.page v = 0 := by
  by_cases hv : v < numVirtPages
  · rw [space_dir (div_lt_of_lt_numVirtPages hv)] at hd
    rw [space_page hv, walkPage, if_pos hd]
  · exact space_page_of_le (by omega)

/-- The walk of an address is the page map at its page number. -/
theorem walk_eq {va : ℕ} (hva : va < 2 ^ 32) (hd : vm.loadPde vm.pageDir (pdx va) ≠ 0) :
    vm.loadPte (vm.loadPde vm.pageDir (pdx va)) (ptx va) = vm.space.page (va / 4096) := by
  have hlt : va / 4096 < numVirtPages := by
    simp only [numVirtPages, maxMemSize, pgSize]
    omega
  rw [space_page hlt, walkPage, ← pdx_eq hva, ← ptx_eq va, if_neg hd]

theorem loadPde_eq {va : ℕ} (hva : va < 2 ^ 32) :
    vm.loadPde vm.pageDir (pdx va) = vm.space.dir (va / 4096 / 1024) := by
  rw [space_dir (by omega), pdx_eq hva]

end Read

/-! ### Writes to one frame -/

section Write

variable {vm : Vm} {m : Bytes}

/-- The directory is read from frame `0` only. -/
theorem dir_congr (h0 : vm.pageDir = 0) (ha : Agree vm.physMem m 0 pgSize) :
    ({ vm with physMem := m } : Vm).space.dir = vm.space.dir := by
  funext i
  by_cases hi : i < 1024
  · rw [space_dir hi, space_dir hi]
    refine load32_congr (ha.mono (Nat.zero_le _) ?_)
    dsimp only
    simp only [h0, pgSize]
    omega
  · rw [space_dir_of_le (by omega), space_dir_of_le (by omega)]

/-- A page of a table that keeps its directory entry is read from that entry's four bytes. -/
theorem page_congr {vm' : Vm} {v : ℕ} (hd : vm'.space.dir (v / 1024) = vm.space.dir (v / 1024))
    (ha : vm.space.dir (v / 1024) ≠ 0 →
      Agree vm.physMem vm'.physMem (vm.space.dir (v / 1024) + 4 * (v % 1024)) 4) :
    vm'.space.page v = vm.space.page v := by
  by_cases h0 : vm.space.dir (v / 1024) = 0
  · rw [space_page_of_dir h0, space_page_of_dir (hd.trans h0)]
  · by_cases hv : v < numVirtPages
    · have hi := div_lt_of_lt_numVirtPages hv
      have hj : v % 1024 < 1024 := Nat.mod_lt _ (by decide)
      have e : v = 1024 * (v / 1024) + v % 1024 := by omega
      rw [e, ← loadPte_dir hi hj h0, ← loadPte_dir hi hj (by rw [hd]; exact h0), hd]
      exact load32_congr (ha h0)
    · rw [space_page_of_le (by omega), space_page_of_le (by omega)]

variable (h0 : vm.pageDir = 0) (hiso : vm.space.Isolated)

include hiso in
/-- A table is a frame other than frame `0`. -/
theorem dir_frame_pos {i : ℕ} (hd : vm.space.dir i ≠ 0) :
    IsFrame (vm.space.dir i) ∧ 4096 ≤ vm.space.dir i := by
  obtain ⟨hf, -⟩ := hiso.dir_frame i hd
  have h1 := hf.1
  simp only [pgSize] at h1
  exact ⟨hf, by omega⟩

omit hiso in
include h0 in
/-- A write that keeps frame `0` and every table keeps the directory and the page map. -/
theorem space_congr (ha : Agree vm.physMem m 0 pgSize)
    (ht : ∀ i, vm.space.dir i ≠ 0 → Agree vm.physMem m (vm.space.dir i) pgSize) :
    ({ vm with physMem := m } : Vm).space = vm.space := by
  have hdir := dir_congr h0 ha
  have hpage : ({ vm with physMem := m } : Vm).space.page = vm.space.page := by
    funext v
    refine page_congr (congrFun hdir _) fun hd => (ht _ hd).mono (by omega) ?_
    simp only [pgSize]
    omega
  exact Space.ext hdir hpage rfl rfl

include h0 hiso in
/-- A write to one entry of an existing table. -/
theorem space_storePte {i j x : ℕ} (hi : i < 1024) (hj : j < 1024) (hd : vm.space.dir i ≠ 0)
    (hx : x < 2 ^ 32) :
    (vm.storeEntry (vm.space.dir i) j x).space
      = { vm.space with page := Function.update vm.space.page (1024 * i + j) x } := by
  obtain ⟨hf, hpos⟩ := dir_frame_pos hiso hd
  have hdir : (vm.storeEntry (vm.space.dir i) j x).space.dir = vm.space.dir := by
    refine dir_congr h0 (agree_store32 _ ?_)
    simp only [pgSize]
    omega
  refine Space.ext hdir ?_ rfl rfl
  funext v
  dsimp only
  by_cases hv : v = 1024 * i + j
  · rw [hv, Function.update_self, ← loadPte_dir hi hj (by rw [hdir]; exact hd), hdir]
    exact load32_store32 _ _ _ hx
  · rw [Function.update_of_ne hv]
    refine page_congr (congrFun hdir _) fun hdv => agree_store32 _ ?_
    by_cases hvi : v / 1024 = i
    · rw [hvi]
      omega
    · -- another table is another frame
      obtain ⟨hf', -⟩ := dir_frame_pos hiso hdv
      have hne : vm.space.dir (v / 1024) ≠ vm.space.dir i := fun hc =>
        hvi (hiso.dir_inj _ _ hdv hc)
      have := hf'.disjoint hf hne
      omega

include h0 hiso in
/-- The write of `put_data`: bytes of one data frame. -/
theorem space_storeData {v a n : ℕ} {src : Bytes} (hv : vm.space.page v ≠ 0)
    (hl : vm.space.page v ≤ a) (hu : a + n ≤ vm.space.page v + 4096) :
    ({ vm with physMem := memcpy vm.physMem a src n } : Vm).space = vm.space := by
  obtain ⟨hf, -⟩ := hiso.page_frame v hv
  have h1 := hf.1
  simp only [pgSize] at h1
  refine space_congr h0 (agree_memcpy _ ?_) fun i hi => agree_memcpy _ ?_
  · simp only [pgSize]
    omega
  · have := (dir_frame_pos hiso hi).1.disjoint hf (hiso.dir_ne_page i v hi)
    simp only [pgSize]
    omega

include h0 hiso in
/-- Installing a zeroed table at a free directory entry. -/
theorem space_newPageTable {va t : ℕ} (hva : va < 2 ^ 32)
    (hd : vm.space.dir (va / 4096 / 1024) = 0) (hr : vm.space.Unref t) :
    (newPageTable vm vm.pageDir va t).space = vm.space.addTable (va / 4096 / 1024) t := by
  have hi : va / 4096 / 1024 < 1024 := by omega
  have hft := hr.frame
  have h1 := hft.1
  have hpos := hr.pos
  have ht32 : t < 2 ^ 32 := lt_of_lt_of_le hft.2 (by decide)
  simp only [pgSize] at h1
  have hdir : (newPageTable vm vm.pageDir va t).space.dir
      = Function.update vm.space.dir (va / 4096 / 1024) t := by
    funext i
    by_cases hlt : i < 1024
    · rw [space_dir hlt]
      simp only [newPageTable, zeroPage, storeEntry, loadPde, h0, pdx_eq hva]
      by_cases hie : i = va / 4096 / 1024
      · rw [hie, Function.update_self]
        exact load32_store32 _ _ _ ht32
      · rw [Function.update_of_ne hie, space_dir hlt, loadPde, h0]
        refine (load32_congr (agree_store32 _ (by omega))).trans (load32_congr ?_)
        exact agree_memset _ (by omega)
    · rw [space_dir_of_le (by omega), Function.update_of_ne (by omega),
        space_dir_of_le (by omega)]
  refine Space.ext hdir ?_ rfl rfl
  funext v
  by_cases hvi : v / 1024 = va / 4096 / 1024
  · -- every page of the new table reads zero, and none was mapped before
    have hold : vm.space.page v = 0 := space_page_of_dir (by rw [hvi]; exact hd)
    have hv : v < numVirtPages := by
      simp only [numVirtPages, maxMemSize, pgSize]
      omega
    have hdv : (newPageTable vm vm.pageDir va t).space.dir (v / 1024) = t := by
      rw [hdir, hvi, Function.update_self]
    have e : v = 1024 * (v / 1024) + v % 1024 := by omega
    change (newPageTable vm vm.pageDir va t).space.page v = vm.space.page v
    rw [hold, e, ← loadPte_dir (by omega) (Nat.mod_lt _ (by decide)) (by rw [hdv]; exact hpos),
      hdv]
    simp only [newPageTable, zeroPage, storeEntry, loadPte, h0]
    have hag : Agree (memset vm.physMem t 0 pgSize)
        (store32 (memset vm.physMem t 0 pgSize) (0 + 4 * pdx va) t) (t + 4 * (v % 1024)) 4 :=
      agree_store32 _ (by rw [pdx_eq hva]; omega)
    rw [load32_congr hag]
    exact load32_memset_zero _ (by omega) (by simp only [pgSize]; omega)
  · refine page_congr (by rw [hdir, Function.update_of_ne hvi]) fun hdv => ?_
    obtain ⟨hf', hpos'⟩ := dir_frame_pos hiso hdv
    have hdis := hf'.disjoint hft (hr.dir _)
    refine Agree.trans (agree_memset _ (a := t) (c := 0) (n := pgSize) ?_) (agree_store32 _ ?_)
    · simp only [pgSize]
      omega
    · rw [h0, pdx_eq hva]
      omega

include h0 hiso in
/-- Clearing the directory entry of an empty table. -/
theorem space_clearPde {va : ℕ} (hva : va < 2 ^ 32)
    (he : vm.space.tableEmpty (va / 4096 / 1024) = true) :
    (vm.storeEntry vm.pageDir (pdx va) 0).space
      = { vm.space with dir := Function.update vm.space.dir (va / 4096 / 1024) 0 } := by
  have hi : va / 4096 / 1024 < 1024 := by omega
  have hdir : (vm.storeEntry vm.pageDir (pdx va) 0).space.dir
      = Function.update vm.space.dir (va / 4096 / 1024) 0 := by
    funext i
    -- of the directory only this entry changes
    by_cases hlt : i < 1024
    · rw [space_dir hlt]
      simp only [storeEntry, loadPde, h0, pdx_eq hva]
      by_cases hie : i = va / 4096 / 1024
      · rw [hie, Function.update_self]
        exact load32_store32 _ _ _ (by decide)
      · rw [Function.update_of_ne hie, space_dir hlt, loadPde, h0]
        exact load32_congr (agree_store32 _ (by omega))
    · rw [space_dir_of_le (by omega), Function.update_of_ne (by omega),
        space_dir_of_le (by omega)]
  refine Space.ext hdir (funext fun v => ?_) rfl rfl
  -- the pages of the table read as unmapped now, and were unmapped before
  by_cases hvi : v / 1024 = va / 4096 / 1024
  · exact (space_page_of_dir (by rw [hdir, hvi, Function.update_self])).trans
      (Space.tableEmpty_iff.mp he v hvi).symm
  -- the store is in the directory's frame, so it misses every other table
  · refine page_congr (by rw [hdir, Function.update_of_ne hvi]) fun hdv => agree_store32 _ ?_
    have hpos := (dir_frame_pos hiso hdv).2
    rw [h0, pdx_eq hva]
    omega

include h0 hiso in
/-- Zeroing a frame that is no table. -/
theorem space_zeroPage {t : ℕ} (hf : IsFrame t) (hpos : t ≠ 0) (hd : ∀ i, vm.space.dir i ≠ t) :
    (vm.zeroPage t).space = vm.space := by
  have h1 := hf.1
  simp only [pgSize] at h1
  refine space_congr h0 (agree_memset _ ?_) fun i hi => agree_memset _ ?_
  · simp only [pgSize]
    omega
  · have hdis := (dir_frame_pos hiso hi).1.disjoint hf (hd i)
    simp only [pgSize]
    omega

include h0 hiso in
/-- Clearing the directory entry of an empty table and zeroing its frame. -/
theorem space_reclaimTable {va : ℕ} (hva : va < 2 ^ 32)
    (hd : vm.space.dir (va / 4096 / 1024) ≠ 0)
    (he : vm.space.tableEmpty (va / 4096 / 1024) = true) :
    (reclaimTable vm va (vm.space.dir (va / 4096 / 1024))).space
      = vm.space.dropTable (va / 4096 / 1024) := by
  obtain ⟨hf, hpos⟩ := dir_frame_pos hiso hd
  set t := vm.space.dir (va / 4096 / 1024) with ht
  have hclear := space_clearPde h0 hiso hva he
  set vm₁ := vm.storeEntry vm.pageDir (pdx va) 0 with hvm₁
  -- no other entry points at the table, so zeroing its frame hits no table in use
  have hother : ∀ i, vm₁.space.dir i ≠ t := by
    intro i hit
    rw [hclear] at hit
    dsimp only at hit
    by_cases hie : i = va / 4096 / 1024
    · rw [hie, Function.update_self] at hit
      omega
    · rw [Function.update_of_ne hie] at hit
      exact hie (hiso.dir_inj i _ (by omega) hit)
  have hiso₁ : vm₁.space.Isolated := hclear ▸ hiso.dropDir he
  have hzero := @space_zeroPage vm₁ h0 hiso₁ t hf (by omega) hother
  have hbit : bit (clearBit vm.physBitmap (t >>> 12))
      = Function.update vm.space.used (t / 4096) false := by
    rw [bit_clearBit, shiftRight_12]
    rfl
  exact Space.ext ((congrArg Space.dir hzero :).trans (congrArg Space.dir hclear :))
    ((congrArg Space.page hzero :).trans (congrArg Space.page hclear :)) hbit rfl

end Write

/-! ### The functions on an address space -/

section Functions

variable {vm : Vm}

/-- `allocate_phys_page` is `Space.alloc` and writes the frame bitmap only. -/
theorem space_allocatePhysPage (vm : Vm) :
    (allocatePhysPage vm = none ∧ vm.space.alloc = none) ∨
    ∃ f < numPhysPages, allocatePhysPage vm = some (f * 4096, vm.setPhysBit f) ∧
      vm.space.alloc = some (f * 4096, (vm.setPhysBit f).space) := by
  have hcongr : firstIdx (fun pfn => getBit vm.physBitmap pfn == 0) 0 numPhysPages
      = firstIdx (fun f => !vm.space.used f) 0 numPhysPages := by
    refine firstIdx_congr fun f _ _ => ?_
    rw [getBit_eq, space_used]
    cases bit vm.physBitmap f <;> rfl
  unfold allocatePhysPage Space.alloc
  rw [hcongr]
  cases hf : firstIdx (fun f => !vm.space.used f) 0 numPhysPages with
  | none => exact Or.inl ⟨rfl, rfl⟩
  | some f =>
    obtain ⟨-, hu, -, -⟩ := firstIdx_eq_some.mp hf
    have hlt : f < numPhysPages := by omega
    have hmod : f * pgSize % 2 ^ 32 = f * 4096 := by
      simp only [numPhysPages, memSize, pgSize] at hlt ⊢
      omega
    refine Or.inr ⟨f, hlt, by simp only [hmod], ?_⟩
    simp only [Option.some.injEq, Prod.mk.injEq, true_and]
    exact Space.ext rfl rfl (bit_setBit _ _).symm rfl

/-- A store into an existing table writes no data page. -/
theorem keeps_storePte (hw : vm.PageInv) {i j x : ℕ} (hi : i < 1024) (hj : j < 1024)
    (hd : vm.space.dir i ≠ 0) (hx : x < 2 ^ 32) :
    Keeps (· ≠ 1024 * i + j) vm (vm.storeEntry (vm.space.dir i) j x) := by
  intro v hv hv0
  rw [space_storePte hw.pageDir hw.wf.toIsolated hi hj hd hx]
  refine ⟨Function.update_of_ne hv _ _, agree_store32 _ ?_⟩
  have := (dir_frame_pos hw.wf.toIsolated hd).1.disjoint (hw.wf.page_frame v hv0).1
    (hw.wf.dir_ne_page i v hd)
  simp only [pgSize]
  omega

/-- The address space after `map_page` with an existing table. -/
theorem space_mapPageIn {va pa : ℕ} (h0 : vm.pageDir = 0) (hiso : vm.space.Isolated)
    (hva : va < 2 ^ 32) (hpa : pa < 2 ^ 32) (hd : vm.space.dir (va / 4096 / 1024) ≠ 0) :
    (mapPageIn vm (vm.space.dir (va / 4096 / 1024)) va pa).space
      = vm.space.install (va / 4096) pa := by
  have hst := space_storePte h0 hiso (by omega) (Nat.mod_lt (va / 4096) (by decide)) hd hpa
  rw [show 1024 * (va / 4096 / 1024) + va / 4096 % 1024 = va / 4096 by omega] at hst
  have hdir := congrArg Space.dir hst
  have hpage := congrArg Space.page hst
  refine Space.ext ?_ ?_ ?_ ?_
  · rw [← ptx_eq] at hdir
    exact hdir
  · rw [← ptx_eq] at hpage
    exact hpage
  · change bit (setBit vm.physBitmap (pa >>> 12)) = _
    rw [bit_setBit, shiftRight_12]
    rfl
  · change bit (setBit vm.virtBitmap (va >>> 12)) = _
    rw [bit_setBit, shiftRight_12]
    rfl

/-- The joint invariant of the page tables, the bitmaps and the TLB. -/
structure Inv (vm : Vm) : Prop extends PageInv vm where
  tlb : TlbOk vm.space.page vm.tlbStore

/-- Functions that leave the bytes and the page map alone keep all data. -/
theorem keeps_of_eq {vm' : Vm} (P : ℕ → Prop) (hm : vm'.physMem = vm.physMem)
    (hp : vm'.space.page = vm.space.page) : Keeps P vm vm' := by
  intro v _ _
  rw [hp, hm]
  exact ⟨rfl, Agree.refl _ _ _⟩

/-- Installing a table writes frame `0` and an unreferenced frame. -/
theorem keeps_newPageTable {va t : ℕ} (P : ℕ → Prop) (h0 : vm.pageDir = 0)
    (hiso : vm.space.Isolated) (hva : va < 2 ^ 32) (hd : vm.space.dir (va / 4096 / 1024) = 0)
    (hr : vm.space.Unref t) : Keeps P vm (newPageTable vm vm.pageDir va t) := by
  intro v _ hv
  obtain ⟨hf, -⟩ := hiso.page_frame v hv
  have h1 := hf.1
  simp only [pgSize] at h1
  rw [space_newPageTable h0 hiso hva hd hr]
  refine ⟨rfl, Agree.trans (agree_memset _ (a := t) (c := 0) (n := pgSize) ?_)
    (agree_store32 _ ?_)⟩
  · have := hf.disjoint hr.frame (hr.page v)
    simp only [pgSize]
    omega
  · rw [h0, pdx_eq hva]
    omega

/-- The steps of `map_page` after the table exists, on the joint invariant. -/
theorem mapPageIn_inv {va pa : ℕ} (h0 : vm.pageDir = 0) (hiso : vm.space.Isolated)
    (ht : TlbOk vm.space.page vm.tlbStore) (hva : va < 2 ^ 32)
    (hd : vm.space.dir (va / 4096 / 1024) ≠ 0) (hr : vm.space.Unref pa)
    (hp : vm.space.page (va / 4096) = 0) :
    let vm' := mapPageIn vm (vm.space.dir (va / 4096 / 1024)) va pa
    vm'.space = vm.space.install (va / 4096) pa ∧ vm'.pageDir = 0 ∧
      TlbOk vm'.space.page vm'.tlbStore ∧ Keeps (fun _ => True) vm vm' := by
  have hpa : pa < 2 ^ 32 := lt_of_lt_of_le hr.frame.2 (by decide)
  have hsp := space_mapPageIn h0 hiso hva hpa hd
  refine ⟨hsp, h0, ?_, fun v _ hv => ?_⟩
  · rw [hsp]
    refine TlbOk.add (ht.map_new hp) ?_ hr.pos
    rw [shiftRight_12]
    exact Function.update_self _ _ _
  · rw [hsp]
    have hne : v ≠ va / 4096 := fun hc => hv (by rw [hc]; exact hp)
    refine ⟨Function.update_of_ne hne _ _, agree_store32 _ ?_⟩
    have := (dir_frame_pos hiso hd).1.disjoint (hiso.page_frame v hv).1
      (hiso.dir_ne_page _ v hd)
    rw [ptx_eq]
    simp only [pgSize]
    omega

/-- **`map_page`** is `Space.mapPage`, keeps the invariant and writes no mapped page. -/
theorem space_mapPage (h : vm.Inv) {va pa : ℕ} (hva : va < 2 ^ 32) (hv : va / 4096 ≠ 0)
    (hp : vm.space.page (va / 4096) = 0) (hr : vm.space.Unref pa)
    (hu : vm.space.used (pa / 4096) = true) :
    (mapPage vm vm.pageDir va pa = (vm, -1) ∧ vm.space.mapPage (va / 4096) pa = none) ∨
    ∃ vm', mapPage vm vm.pageDir va pa = (vm', 0) ∧
      vm.space.mapPage (va / 4096) pa = some vm'.space ∧ vm'.Inv ∧
      Keeps (fun _ => True) vm vm' := by
  have hlt : va / 4096 < numVirtPages := by
    simp only [numVirtPages, maxMemSize, pgSize]
    omega
  -- the address space of the successful outcomes is well-formed at the abstract level
  have hfinish : ∀ vm' : Vm, vm.space.mapPage (va / 4096) pa = some vm'.space →
      vm'.pageDir = 0 → TlbOk vm'.space.page vm'.tlbStore → vm'.Inv :=
    fun vm' hm h0' ht' => ⟨⟨h0', h.wf.mapPage hr hu hp hv hlt hm⟩, ht'⟩
  have hpde := @loadPde_eq vm va hva
  obtain ⟨hd, he⟩ | ⟨hd, ha, he⟩ | ⟨hd, t, s₁, ha, he⟩ :=
    Space.mapPage_cases vm.space (va / 4096) pa
  · obtain ⟨hsp, h0', ht', hk⟩ :=
      mapPageIn_inv h.pageDir h.wf.toIsolated h.tlb hva hd hr hp
    refine Or.inr ⟨mapPageIn vm (vm.space.dir (va / 4096 / 1024)) va pa, ?_, ?_, ?_, hk⟩
    · rw [mapPage, hpde, if_neg hd]
    · rw [he, hsp]
    · exact hfinish _ (by rw [he, hsp]) h0' ht'
  · obtain ⟨hal, -⟩ | ⟨f, -, -, ha'⟩ := space_allocatePhysPage vm
    · exact Or.inl ⟨by rw [mapPage, hpde, if_pos hd, hal], he⟩
    · rw [ha] at ha'
      exact absurd ha' (by simp)
  · obtain ⟨-, ha'⟩ | ⟨f, hf, hal, ha'⟩ := space_allocatePhysPage vm
    · rw [ha] at ha'
      exact absurd ha' (by simp)
    obtain ⟨rfl, rfl⟩ : t = f * 4096 ∧ s₁ = (vm.setPhysBit f).space := by
      rw [ha] at ha'
      simpa using ha'
    obtain ⟨-, hrt, hut, -⟩ := h.wf.alloc_unref ha
    have hiso₁ := h.wf.toIsolated.alloc ha
    have hd₁ : (vm.setPhysBit f).space.dir (va / 4096 / 1024) = 0 := hd
    have hsp₁ := @space_newPageTable (vm.setPhysBit f) h.pageDir hiso₁ va _ hva hd₁ hrt
    have hk₁ : Keeps (fun _ => True) vm (newPageTable (vm.setPhysBit f) vm.pageDir va (f * 4096)) :=
      (@keeps_of_eq vm (vm.setPhysBit f) _ rfl rfl).trans
        (@keeps_newPageTable (vm.setPhysBit f) va _ _ h.pageDir hiso₁ hva hd₁ hrt)
    set vm₁ := newPageTable (vm.setPhysBit f) vm.pageDir va (f * 4096) with hvm₁
    have hdir₁ : vm₁.space.dir (va / 4096 / 1024) = f * 4096 := by
      rw [hvm₁]
      refine (congrFun (congrArg Space.dir hsp₁) _).trans ?_
      exact Function.update_self _ _ _
    have hisoT : vm₁.space.Isolated := by
      rw [hvm₁]
      exact hsp₁ ▸ hiso₁.addTable hrt hut hd₁ (by omega)
    have hpage₁ : vm₁.space.page = vm.space.page := (congrArg Space.page hsp₁ :)
    have hr₁ : vm₁.space.Unref pa := by
      rw [hvm₁]
      exact hsp₁ ▸ h.wf.unref_addTable hr hu ha
    obtain ⟨hsp, h0', ht', hk⟩ := @mapPageIn_inv vm₁ va pa h.pageDir hisoT
      (by rw [hpage₁]; exact h.tlb) hva (by rw [hdir₁]; exact hrt.pos) hr₁
      (by rw [hpage₁]; exact hp)
    have hmap : vm.space.mapPage (va / 4096) pa
        = some (mapPageIn vm₁ (vm₁.space.dir (va / 4096 / 1024)) va pa).space := by
      rw [he, hsp]
      exact congrArg (fun s => some (Space.install s (va / 4096) pa)) hsp₁.symm
    refine Or.inr ⟨_, ?_, hmap, hfinish _ hmap h0' ht', hk₁.trans hk⟩
    rw [mapPage, hpde, if_pos hd, hal, hdir₁]

/-- `page_table_empty` on an existing table. -/
theorem pageTableEmpty_eq {i : ℕ} (hi : i < 1024) (hd : vm.space.dir i ≠ 0) :
    pageTableEmpty vm (vm.space.dir i) = vm.space.tableEmpty i := by
  unfold pageTableEmpty Space.tableEmpty
  rw [firstIdx_congr fun j _ hj => ?_]
  · rw [loadPte_dir hi (by simp only [pxMask] at hj; omega) hd]

/-- The address space after one page was unmapped. -/
theorem space_unmapPage {va : ℕ} (hw : vm.PageInv) (hva : va < 2 ^ 32)
    (hp : vm.space.page (va / 4096) ≠ 0) :
    (unmapPage vm (vm.space.dir (va / 4096 / 1024)) (vm.space.page (va / 4096)) va).space
      = vm.space.clearPage (va / 4096) := by
  have hd := hw.wf.page_dir _ hp
  have hst := space_storePte (x := 0) hw.pageDir hw.wf.toIsolated (by omega)
    (Nat.mod_lt (va / 4096) (by decide)) hd (by decide)
  rw [show 1024 * (va / 4096 / 1024) + va / 4096 % 1024 = va / 4096 by omega, ← ptx_eq] at hst
  refine Space.ext (congrArg Space.dir hst :) (congrArg Space.page hst :) ?_ ?_
  · change bit (clearBit vm.physBitmap (vm.space.page (va / 4096) >>> 12)) = _
    rw [bit_clearBit, shiftRight_12]
    rfl
  · change bit (clearBit vm.virtBitmap (va >>> 12)) = _
    rw [bit_clearBit, shiftRight_12]
    rfl

theorem keeps_unmapPage {va : ℕ} (hw : vm.PageInv) (hva : va < 2 ^ 32)
    (hp : vm.space.page (va / 4096) ≠ 0) :
    Keeps (· ≠ va / 4096) vm
      (unmapPage vm (vm.space.dir (va / 4096 / 1024)) (vm.space.page (va / 4096)) va) := by
  have hk := keeps_storePte (x := 0) hw (i := va / 4096 / 1024) (j := va / 4096 % 1024) (by omega)
    (Nat.mod_lt _ (by decide)) (hw.wf.page_dir _ hp) (by decide)
  rw [show 1024 * (va / 4096 / 1024) + va / 4096 % 1024 = va / 4096 by omega, ← ptx_eq] at hk
  exact hk

theorem keeps_reclaimTable {va : ℕ} (P : ℕ → Prop) (h0 : vm.pageDir = 0)
    (hiso : vm.space.Isolated) (hva : va < 2 ^ 32) (hd : vm.space.dir (va / 4096 / 1024) ≠ 0)
    (he : vm.space.tableEmpty (va / 4096 / 1024) = true) :
    Keeps P vm (reclaimTable vm va (vm.space.dir (va / 4096 / 1024))) := by
  intro v _ hv
  obtain ⟨hf, -⟩ := hiso.page_frame v hv
  have h1 := hf.1
  simp only [pgSize] at h1
  rw [space_reclaimTable h0 hiso hva hd he]
  refine ⟨rfl, Agree.trans (agree_store32 _ (a := vm.pageDir + 4 * pdx va) (v := 0) ?_)
    (agree_memset _ ?_)⟩
  · rw [h0, pdx_eq hva]
    omega
  · have := hf.disjoint (dir_frame_pos hiso hd).1 (hiso.dir_ne_page _ v hd).symm
    simp only [pgSize]
    omega

/-- **The loop body of `n_free`** is `Space.freePage`. It touches the TLB only when the page
was mapped, and writes no other page. -/
theorem space_freePage (hw : vm.PageInv) {va : ℕ} (hva : va < 2 ^ 32) :
    (freePage vm va).space = vm.space.freePage (va / 4096) ∧ (freePage vm va).PageInv ∧
      Keeps (· ≠ va / 4096) vm (freePage vm va) ∧
      (freePage vm va).tlbStore
        = if vm.space.page (va / 4096) = 0 then vm.tlbStore else tlbInvalidate vm.tlbStore va := by
  have hwf := hw.wf.freePage (va / 4096)
  have hpde := @loadPde_eq vm va hva
  by_cases hp : vm.space.page (va / 4096) = 0
  · -- the page is not mapped: both early exits leave the state alone
    have hself : freePage vm va = vm := by
      rw [freePage]
      by_cases hd : vm.loadPde vm.pageDir (pdx va) = 0
      · rw [if_pos hd]
      · rw [if_neg hd, walk_eq hva hd, if_pos hp]
    rw [hself, if_pos hp, Space.freePage, if_pos hp]
    exact ⟨rfl, hw, Keeps.refl _ _, rfl⟩
  have hd := hw.wf.page_dir _ hp
  have hdl : vm.loadPde vm.pageDir (pdx va) ≠ 0 := by rw [hpde]; exact hd
  have hsp := space_unmapPage hw hva hp
  have hk := keeps_unmapPage hw hva hp
  set vm₁ := unmapPage vm (vm.space.dir (va / 4096 / 1024)) (vm.space.page (va / 4096)) va
    with hvm₁
  have hdir₁ : vm₁.space.dir (va / 4096 / 1024) = vm.space.dir (va / 4096 / 1024) :=
    congrFun (congrArg Space.dir hsp :) _
  have hbody : freePage vm va = if pageTableEmpty vm₁ (vm.space.dir (va / 4096 / 1024)) then
      reclaimTable vm₁ va (vm.space.dir (va / 4096 / 1024)) else vm₁ := by
    rw [freePage, if_neg hdl, walk_eq hva hdl, if_neg hp, hpde]
  rw [← hdir₁, pageTableEmpty_eq (by omega) (by rw [hdir₁]; exact hd)] at hbody
  have hiso₁ : vm₁.space.Isolated := by
    rw [hsp]
    exact hw.wf.toIsolated.clearPage hp
  rw [Space.freePage, if_neg hp] at hwf ⊢
  rw [hbody, if_neg hp]
  by_cases he : vm₁.space.tableEmpty (va / 4096 / 1024) = true
  · have hr := (@space_reclaimTable vm₁ hw.pageDir hiso₁ va hva (by rw [hdir₁]; exact hd)
      he).trans (congrArg (Space.dropTable · (va / 4096 / 1024)) hsp)
    have hk₁ := @keeps_reclaimTable vm₁ va (· ≠ va / 4096) hw.pageDir hiso₁ hva
      (by rw [hdir₁]; exact hd) he
    rw [if_pos he]
    rw [hsp] at he
    rw [if_pos he] at hwf ⊢
    exact ⟨hr, ⟨hw.pageDir, by rw [hr]; exact hwf⟩, hk.trans hk₁, rfl⟩
  · rw [if_neg he]
    rw [hsp] at he
    rw [if_neg he] at hwf ⊢
    exact ⟨hsp, ⟨hw.pageDir, by rw [hsp]; exact hwf⟩, hk, rfl⟩

/-- The loop body of `n_free` on the joint invariant. The TLB stays coherent unless the
address is the one `TLB_invalidate` refuses and the last page has a valid entry. -/
theorem freePage_inv (h : vm.Inv) {va : ℕ} (hva : va < 2 ^ 32)
    (hlast : va = invalidPa → vm.tlbStore.find (va / 4096) = none) : (freePage vm va).Inv := by
  obtain ⟨hsp, hw, -, ht⟩ := space_freePage h.toPageInv hva
  refine ⟨hw, ?_⟩
  rw [hsp, ht, Space.freePage_page]
  by_cases hp : vm.space.page (va / 4096) = 0
  · rw [if_pos hp]
    exact h.tlb.map_new hp
  · rw [if_neg hp, ← shiftRight_12]
    exact h.tlb.invalidate (by rw [shiftRight_12]; exact hlast)

/-- **The loop of `n_free`** is `Space.freePages`. -/
theorem space_freePages (hw : vm.PageInv) (va n : ℕ) :
    (freePages vm va n).space = vm.space.freePages (va / 4096) n ∧ (freePages vm va n).PageInv ∧
      Keeps (fun v => ∀ k < n, v ≠ (va / 4096 + k) % numVirtPages) vm (freePages vm va n) := by
  induction n with
  | zero => exact ⟨rfl, hw, Keeps.refl _ _⟩
  | succ n ih =>
    obtain ⟨hsp, hw', hk⟩ := ih
    have hpage : (va + n * pgSize) % 2 ^ 32 / 4096 = (va / 4096 + n) % numVirtPages := by
      simp only [numVirtPages, maxMemSize, pgSize]
      omega
    obtain ⟨hsp₁, hw₁, hk₁, -⟩ := @space_freePage _ hw' ((va + n * pgSize) % 2 ^ 32)
      (Nat.mod_lt _ (by decide))
    rw [hpage] at hsp₁ hk₁
    refine ⟨?_, hw₁, ?_⟩
    · rw [freePages, hsp₁, hsp]
      rfl
    · refine (hk.mono fun v hv _ k hk' => hv k (by omega)).trans (hk₁.mono fun v hv _ => ?_)
      exact hv n (by omega)

/-- The loop of `n_free` on the joint invariant, when it visits no address that
`TLB_invalidate` refuses. -/
theorem freePages_inv (h : vm.Inv) {va n : ℕ}
    (hlast : ∀ k < n, (va + k * pgSize) % 2 ^ 32 = invalidPa →
      (freePages vm va k).tlbStore.find (invalidPa / 4096) = none) :
    (freePages vm va n).Inv := by
  induction n with
  | zero => exact h
  | succ n ih =>
    refine freePage_inv (ih fun k hk => hlast k (by omega)) (Nat.mod_lt _ (by decide)) fun he => ?_
    rw [he]
    exact hlast n (by omega) he

/-- From a page-aligned address the loop visits page-aligned addresses only. -/
theorem freePages_inv_of_aligned (h : vm.Inv) {va n : ℕ} (hva : va % pgSize = 0) :
    (freePages vm va n).Inv := by
  refine freePages_inv h fun k _ he => ?_
  simp only [pgSize, invalidPa] at hva he
  omega

end Functions

end Vm

end MyVm
