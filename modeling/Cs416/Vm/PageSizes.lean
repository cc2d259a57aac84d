import Cs416.Vm.Model

/-!
# The other page sizes

`my_vm.h` selects the shifts and masks of the address macros by `PGSIZE`, for five page
sizes. `PFN_SHIFT` is not among them: it is `12` for every page size, and it is `PFN_SHIFT`
that turns an address into a page number for the TLB and `virt_bitmap`, a page number into
the address that `get_next_avail` returns, and a physical address into an index of
`phys_bitmap`.

The macros themselves decompose an address for every page size
(`PageSize.eq_of_indices`). What the code makes of them is consistent for 4 KB pages only
(`address_decomposition`).
-/

open ByteMem Scan

namespace MyVm

/-- The values of `PGSIZE` that the header accepts. -/
inductive PageSize
  | kb4 | kb8 | kb16 | kb32 | kb64
  deriving DecidableEq, Repr

namespace PageSize

/-- `PGSIZE`. -/
def pgSize : PageSize → ℕ
  | kb4 => 4096 | kb8 => 8192 | kb16 => 16384 | kb32 => 32768 | kb64 => 65536

/-- `PDXSHIFT`. -/
def pdxShift : PageSize → ℕ
  | kb4 => 22 | kb8 => 23 | kb16 => 25 | kb32 => 27 | kb64 => 29

/-- `PTXSHIFT`. -/
def ptxShift : PageSize → ℕ
  | kb4 => 12 | kb8 => 13 | kb16 => 14 | kb32 => 15 | kb64 => 16

/-- `PXMASK`. -/
def pxMask : PageSize → ℕ
  | kb4 => 0x3FF | kb8 => 0x3FF | kb16 => 0x7FF | kb32 => 0xFFF | kb64 => 0x1FFF

/-- `OFFMASK`. -/
def offMask : PageSize → ℕ
  | kb4 => 0xFFF | kb8 => 0x1FFF | kb16 => 0x3FFF | kb32 => 0x7FFF | kb64 => 0xFFFF

variable (c : PageSize)

/-- `PDX(va)`. -/
def pdx (va : ℕ) : ℕ := (va >>> c.pdxShift) &&& c.pxMask

/-- `PTX(va)`. -/
def ptx (va : ℕ) : ℕ := (va >>> c.ptxShift) &&& c.pxMask

/-- `OFF(va)`. -/
def off (va : ℕ) : ℕ := va &&& c.offMask

/-- `num_phys_pages`. -/
def numPhysPages : ℕ := memSize / c.pgSize

/-- `num_virt_pages`. -/
def numVirtPages : ℕ := maxMemSize / c.pgSize

/-- The frame that `allocate_phys_page` takes, and the address it returns for it. -/
def allocatePhysPage (physBitmap : Bytes) : Option (ℕ × ℕ) :=
  (firstIdx (fun pfn => getBit physBitmap pfn == 0) 0 c.numPhysPages).map fun pfn =>
    (pfn, pfn * c.pgSize % 2 ^ 32)

/-- The address that `get_next_avail` returns. -/
def getNextAvail (virtBitmap : Bytes) (numPages : ℕ) : Option ℕ :=
  (findRun virtBitmap numPages (c.numVirtPages - 1) 1 0).map fun startVpn =>
    (startVpn <<< pfnShift) % 2 ^ 32

/-- The default build. -/
theorem kb4_macros : kb4.pdx = MyVm.pdx ∧ kb4.ptx = MyVm.ptx ∧ kb4.off = MyVm.off ∧
    kb4.numPhysPages = MyVm.numPhysPages ∧ kb4.numVirtPages = MyVm.numVirtPages :=
  ⟨rfl, rfl, rfl, rfl, rfl⟩

/-- The shifts, masks and divisions by `PGSIZE` describe the same page numbers. -/
structure Consistent (c : PageSize) : Prop where
  /-- The three parts determine an address. -/
  decompose : ∀ a < 2 ^ 32, ∀ b < 2 ^ 32, c.pdx a = c.pdx b → c.ptx a = c.ptx b →
    c.off a = c.off b → a = b
  /-- The page number of the TLB and of `virt_bitmap` is the one of the page tables. -/
  pageNumber : ∀ a < 2 ^ 32, ∀ b < 2 ^ 32,
    (a >>> pfnShift = b >>> pfnShift ↔ c.pdx a = c.pdx b ∧ c.ptx a = c.ptx b)
  /-- `get_next_avail` returns the address of a page. -/
  base : ∀ virtBitmap numPages va, 1 ≤ numPages →
    c.getNextAvail virtBitmap numPages = some va → c.off va = 0
  /-- `map_page` and `n_free` find a frame under the index under which it was taken. -/
  frameNumber : ∀ physBitmap pfn pa, c.allocatePhysPage physBitmap = some (pfn, pa) →
    pa >>> pfnShift = pa / c.pgSize ∧ pa / c.pgSize = pfn

variable {c}

/-- The macros in terms of division and remainder. -/
theorem macros_eq (a : ℕ) : c.pdx a = a / 2 ^ c.pdxShift % (c.pxMask + 1) ∧
    c.ptx a = a / 2 ^ c.ptxShift % (c.pxMask + 1) ∧ c.off a = a % (c.offMask + 1) := by
  have hpx : ∃ n, c.pxMask = 2 ^ n - 1 ∧ c.pxMask + 1 = 2 ^ n := by
    cases c
    · exact ⟨10, rfl, rfl⟩
    · exact ⟨10, rfl, rfl⟩
    · exact ⟨11, rfl, rfl⟩
    · exact ⟨12, rfl, rfl⟩
    · exact ⟨13, rfl, rfl⟩
  have hoff : ∃ n, c.offMask = 2 ^ n - 1 ∧ c.offMask + 1 = 2 ^ n := by
    cases c
    · exact ⟨12, rfl, rfl⟩
    · exact ⟨13, rfl, rfl⟩
    · exact ⟨14, rfl, rfl⟩
    · exact ⟨15, rfl, rfl⟩
    · exact ⟨16, rfl, rfl⟩
  obtain ⟨n, hn, hn'⟩ := hpx
  obtain ⟨m, hm, hm'⟩ := hoff
  refine ⟨?_, ?_, ?_⟩
  · rw [pdx, hn', hn, Nat.shiftRight_eq_div_pow, Nat.and_two_pow_sub_one_eq_mod]
  · rw [ptx, hn', hn, Nat.shiftRight_eq_div_pow, Nat.and_two_pow_sub_one_eq_mod]
  · rw [off, hm', hm, Nat.and_two_pow_sub_one_eq_mod]

/-- **The three parts determine an address**, whatever the page size. -/
theorem eq_of_indices {a b : ℕ} (ha : a < 2 ^ 32) (hb : b < 2 ^ 32) (hd : c.pdx a = c.pdx b)
    (ht : c.ptx a = c.ptx b) (ho : c.off a = c.off b) : a = b := by
  rw [(macros_eq a).1, (macros_eq b).1] at hd
  rw [(macros_eq a).2.1, (macros_eq b).2.1] at ht
  rw [(macros_eq a).2.2, (macros_eq b).2.2] at ho
  cases c <;> simp only [pdxShift, ptxShift, pxMask, offMask] at hd ht ho <;> omega

theorem kb4_consistent : kb4.Consistent where
  decompose _ ha _ hb := eq_of_indices ha hb
  pageNumber a ha b hb := by
    rw [(macros_eq a).1, (macros_eq b).1, (macros_eq a).2.1, (macros_eq b).2.1, pfnShift,
      Nat.shiftRight_eq_div_pow, Nat.shiftRight_eq_div_pow]
    simp only [pdxShift, ptxShift, pxMask]
    omega
  base bm n va _ hva := by
    obtain ⟨start, -, rfl⟩ := Option.map_eq_some_iff.mp hva
    rw [(macros_eq _).2.2, Nat.shiftLeft_eq]
    simp only [offMask, pfnShift]
    omega
  frameNumber bm pfn pa hpa := by
    obtain ⟨f, hf, he⟩ := Option.map_eq_some_iff.mp hpa
    obtain ⟨rfl, rfl⟩ := Prod.mk.inj he
    obtain ⟨-, hlt, -, -⟩ := firstIdx_eq_some.mp hf
    refine ⟨Nat.shiftRight_eq_div_pow _ _, ?_⟩
    simp only [numPhysPages, pgSize, memSize] at hlt ⊢
    omega

/-- With larger pages two addresses of one page have different page numbers. -/
theorem not_consistent_of_ne (h : c ≠ kb4) : ¬ c.Consistent := by
  intro hc
  have hpn := (hc.pageNumber 0 (by decide) 4096 (by decide)).mpr
  cases c with
  | kb4 => exact h rfl
  | kb8 | kb16 | kb32 | kb64 => exact absurd (hpn (by decide)) (by decide)

end PageSize

/-- **Address decomposition** is consistent for 4 KB pages and for no other page size. -/
theorem address_decomposition (c : PageSize) : c.Consistent ↔ c = .kb4 := by
  constructor
  · intro hc
    by_contra hne
    exact PageSize.not_consistent_of_ne hne hc
  · rintro rfl
    exact PageSize.kb4_consistent

/-- With 8 KB pages the first address that `get_next_avail` returns, `0x1000`, is in the
middle of page `0`, the TLB has two page numbers for a page, and frame `1` is entered in
`phys_bitmap` under index `2`. -/
theorem kb8_inconsistent : ¬ PageSize.kb8.Consistent ∧
    PageSize.kb8.getNextAvail (fun _ => 0) 1 = some 0x1000 ∧ PageSize.kb8.off 0x1000 ≠ 0 ∧
    0x2000 >>> pfnShift ≠ 0x3000 >>> pfnShift ∧
    PageSize.kb8.pdx 0x2000 = PageSize.kb8.pdx 0x3000 ∧
    PageSize.kb8.ptx 0x2000 = PageSize.kb8.ptx 0x3000 ∧
    (1 * PageSize.kb8.pgSize) >>> pfnShift = 2 := by
  refine ⟨PageSize.not_consistent_of_ne (by decide), ?_, by decide, by decide, by decide,
    by decide, by decide⟩
  rw [PageSize.getNextAvail, show PageSize.kb8.numVirtPages - 1 = 524286 + 1 from rfl, findRun,
    if_pos (by decide)]
  rfl

end MyVm
