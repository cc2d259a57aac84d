import Cs416.Vm.Tlb

/-!
# The simulated virtual memory

The functions of `my_vm.c` on an explicit state. `Vm` collects the globals that
`set_physical_mem` initialises; the page directory, the page tables and the data pages all
live in the one byte array `physMem`, at the addresses the program uses. A physical page
is identified by its address, a virtual page by its number.

Where the program returns `NULL` or `INVALID_PA` the model returns `none`. The loops of
`n_free`, `n_malloc` and `set_bit` recurse on the number of remaining pages, those of
`put_data` and `get_data` on the bytes remaining.

`call` is one call of the library by a program. Before `set_physical_mem` has run, which
only `n_malloc` does, `page_dir` is `NULL`; a call that would dereference it has no result.
-/

open ByteMem Scan

namespace MyVm

/-- The globals of `my_vm.c` once `phys_mem` is allocated. -/
structure Vm where
  /-- `phys_mem` -/
  physMem : Bytes
  /-- The offset of `page_dir` in `phys_mem`. -/
  pageDir : ℕ
  physBitmap : Bytes
  virtBitmap : Bytes
  tlbStore : Tlb
  tlbLookups : UInt64
  tlbMisses : UInt64

/-- A `pte_t *`: into a TLB slot, or into a page table in `phys_mem`. -/
inductive PtePtr
  | tlbSlot (i : ℕ)
  | pteAt (pa : ℕ)
  deriving DecidableEq

namespace Vm

/-- `*p`. -/
def deref (vm : Vm) : PtePtr → ℕ
  | .tlbSlot i => (vm.tlbStore.entries i).pte
  | .pteAt pa => load32 vm.physMem pa

/-- The directory entry for index `i`. -/
def loadPde (vm : Vm) (pgdir i : ℕ) : ℕ := load32 vm.physMem (pgdir + 4 * i)

/-- Entry `j` of the page table at `pde`. -/
def loadPte (vm : Vm) (pde j : ℕ) : ℕ := load32 vm.physMem (pde + 4 * j)

/-- `pgdir[i] = v`, and likewise `page_table[i] = v`. -/
def storeEntry (vm : Vm) (table i v : ℕ) : Vm :=
  { vm with physMem := store32 vm.physMem (table + 4 * i) v }

/-- `memset(page, 0, PGSIZE)`. -/
def zeroPage (vm : Vm) (pa : ℕ) : Vm := { vm with physMem := memset vm.physMem pa 0 pgSize }

def setPhysBit (vm : Vm) (pfn : ℕ) : Vm := { vm with physBitmap := setBit vm.physBitmap pfn }
def clearPhysBit (vm : Vm) (pfn : ℕ) : Vm := { vm with physBitmap := clearBit vm.physBitmap pfn }
def setVirtBit (vm : Vm) (vpn : ℕ) : Vm := { vm with virtBitmap := setBit vm.virtBitmap vpn }
def clearVirtBit (vm : Vm) (vpn : ℕ) : Vm := { vm with virtBitmap := clearBit vm.virtBitmap vpn }
def addTlb (vm : Vm) (va pa : ℕ) : Vm := { vm with tlbStore := (tlbAdd vm.tlbStore va pa).1 }
def invalidateTlb (vm : Vm) (va : ℕ) : Vm := { vm with tlbStore := tlbInvalidate vm.tlbStore va }

/-- `tlb_lookups++`. -/
def countLookup (vm : Vm) : Vm := { vm with tlbLookups := vm.tlbLookups + 1 }
/-- `tlb_misses++`. -/
def countMiss (vm : Vm) : Vm := { vm with tlbMisses := vm.tlbMisses + 1 }

end Vm

/-! ### Setup -/

/-- `allocate_phys_page`: the address of the first frame whose bit is clear. -/
def allocatePhysPage (vm : Vm) : Option (ℕ × Vm) :=
  match firstIdx (fun pfn => getBit vm.physBitmap pfn == 0) 0 numPhysPages with
  | some pfn => some (pfn * pgSize % 2 ^ 32, vm.setPhysBit pfn)
  | none => none

/-- `set_physical_mem`, when `phys_mem` is still `NULL`. `heap` is what `malloc` returned,
with arbitrary contents; a failure of the allocation of the directory would exit. -/
def setPhysicalMem (heap : Bytes) : Vm :=
  let vm : Vm :=
    { physMem := heap, pageDir := 0, physBitmap := fun _ => 0, virtBitmap := fun _ => 0,
      tlbStore := Tlb.empty, tlbLookups := 0, tlbMisses := 0 }
  match allocatePhysPage vm with
  | some (pageDirPa, vm) => { vm.zeroPage pageDirPa with pageDir := pageDirPa }
  | none => vm

/-! ### Page table -/

/-- `translate`. -/
def translate (vm : Vm) (pgdir va : ℕ) : Vm × Option PtePtr :=
  match tlbCheck vm.tlbStore va with
  | some i => (vm.countLookup, some (.tlbSlot i))
  | none =>
    let vm := vm.countLookup.countMiss
    let pde := vm.loadPde pgdir (pdx va)
    if pde = 0 then (vm, none)
    else
      let pte := vm.loadPte pde (ptx va)
      if pte = 0 then (vm, none)
      else (vm.addTlb va pte, some (.pteAt (pde + 4 * ptx va)))

/-- The part of `map_page` that installs an existing page table in the directory. -/
def newPageTable (vm : Vm) (pgdir va newTablePa : ℕ) : Vm :=
  (vm.zeroPage newTablePa).storeEntry pgdir (pdx va) newTablePa

/-- The part of `map_page` after the page table is known to exist. -/
def mapPageIn (vm : Vm) (pde va pa : ℕ) : Vm :=
  ((((vm.storeEntry pde (ptx va) pa).setPhysBit (pa >>> pfnShift)).setVirtBit
    (va >>> pfnShift)).countLookup.countMiss).addTlb va pa

/-- `map_page`. -/
def mapPage (vm : Vm) (pgdir va pa : ℕ) : Vm × ℤ :=
  let pde := vm.loadPde pgdir (pdx va)
  if pde = 0 then
    match allocatePhysPage vm with
    | none => (vm, -1)
    | some (newTablePa, vm) => (mapPageIn (newPageTable vm pgdir va newTablePa) newTablePa va pa, 0)
  else (mapPageIn vm pde va pa, 0)

/-! ### Allocation -/

/-- The scan of `get_next_avail` from page `vpn`, with `freePages` clear bits just behind
it: the first page of the run found. -/
def findRun (virtBitmap : Bytes) (numPages : ℕ) : (fuel vpn freePages : ℕ) → Option ℕ
  | 0, _, _ => none
  | fuel + 1, vpn, freePages =>
    let freePages := if getBit virtBitmap vpn = 1 then 0 else freePages + 1
    if freePages ≥ numPages then some (vpn + 1 - numPages)
    else findRun virtBitmap numPages fuel (vpn + 1) freePages

/-- `for (i = 0; i < n; i++) set_bit(virt_bitmap, start + i);` -/
def setVirtBits (vm : Vm) (start : ℕ) : ℕ → Vm
  | 0 => vm
  | n + 1 => (setVirtBits vm start n).setVirtBit (start + n)

/-- `get_next_avail`: the base address of the run that was reserved. -/
def getNextAvail (vm : Vm) (numPages : ℕ) : Option (ℕ × Vm) :=
  match findRun vm.virtBitmap numPages (numVirtPages - 1) 1 0 with
  | some startVpn =>
    some ((startVpn <<< pfnShift) % 2 ^ 32, setVirtBits vm startVpn numPages)
  | none => none

/-- `page_table_empty`. -/
def pageTableEmpty (vm : Vm) (pageTable : ℕ) : Bool :=
  (firstIdx (fun i => vm.loadPte pageTable i != 0) 0 (pxMask + 1)).isNone

/-- What `n_free` does once the table of the page is empty. -/
def reclaimTable (vm : Vm) (va pde : ℕ) : Vm :=
  ((vm.storeEntry vm.pageDir (pdx va) 0).clearPhysBit (pde >>> pfnShift)).zeroPage pde

/-- What `n_free` does with a mapped page before it looks at the table. -/
def unmapPage (vm : Vm) (pde pte va : ℕ) : Vm :=
  ((((vm.storeEntry pde (ptx va) 0).clearPhysBit (pte >>> pfnShift)).clearVirtBit
    (va >>> pfnShift))).invalidateTlb va

/-- The body of the loop of `n_free`. -/
def freePage (vm : Vm) (va : ℕ) : Vm :=
  let pde := vm.loadPde vm.pageDir (pdx va)
  if pde = 0 then vm
  else
    let pte := vm.loadPte pde (ptx va)
    if pte = 0 then vm
    else
      let vm := unmapPage vm pde pte va
      if pageTableEmpty vm pde then reclaimTable vm va pde else vm

/-- The first `n` iterations of the loop of `n_free`. -/
def freePages (vm : Vm) (startVa : ℕ) : ℕ → Vm
  | 0 => vm
  | n + 1 => freePage (freePages vm startVa n) ((startVa + n * pgSize) % 2 ^ 32)

/-- `(size + PGSIZE - 1) / PGSIZE`, in 32-bit unsigned arithmetic. -/
def roundUpPages (size : ℕ) : ℕ := (size + pgSize - 1) % 2 ^ 32 / pgSize

/-- `n_free`. -/
def nFree (vm : Vm) (va : ℕ) (size : ℤ) : Vm := freePages vm va (roundUpPages (u32 size))

/-- The loop of `n_malloc` from page `i`, with `n` pages to go. A failure frees the `i`
pages mapped so far. -/
def mallocPages (vm : Vm) (baseVa : ℕ) : (i n : ℕ) → Vm × Option ℕ
  | _, 0 => (vm, some baseVa)
  | i, n + 1 =>
    match allocatePhysPage vm with
    | none => (nFree vm baseVa (toInt (i * pgSize)), none)
    | some (currPa, vm) =>
      let r := mapPage vm vm.pageDir ((baseVa + i * pgSize) % 2 ^ 32) currPa
      if r.2 ≠ 0 then (nFree r.1 baseVa (toInt (i * pgSize)), none)
      else mallocPages r.1 baseVa (i + 1) n

/-- `n_malloc`, on an initialised memory and for a nonzero request. -/
def nMalloc (vm : Vm) (numBytes : ℕ) : Vm × Option ℕ :=
  let numPages := roundUpPages numBytes
  if numPages = 0 then (vm, none)
  else
    match getNextAvail vm numPages with
    | none => (vm, none)
    | some (baseVa, vm) => mallocPages vm baseVa 0 numPages

/-! ### Data movement -/

/-- The bytes one iteration of `put_data` or `get_data` copies: up to the end of the page. -/
def bytesToCopy (currVa bytesRemaining : ℕ) : ℕ :=
  if bytesRemaining < pgSize - off currVa then bytesRemaining else pgSize - off currVa

theorem bytesToCopy_eq (currVa bytesRemaining : ℕ) :
    bytesToCopy currVa bytesRemaining = min bytesRemaining (4096 - currVa % 4096) := by
  rw [bytesToCopy, off_eq, show pgSize = 4096 from rfl]
  split <;> omega

theorem bytesToCopy_pos (currVa : ℕ) {n : ℕ} (h : n ≠ 0) : 0 < bytesToCopy currVa n := by
  rw [bytesToCopy_eq]
  omega

/-- The loop of `put_data`: `done` bytes of `src` are stored. -/
def putLoop (vm : Vm) (src : Bytes) (done currVa bytesRemaining : ℕ) : Vm × ℤ :=
  if bytesRemaining = 0 then (vm, 0)
  else
    match translate vm vm.pageDir currVa with
    | (vm, none) => (vm, -1)
    | (vm, some pte) =>
      let n := bytesToCopy currVa bytesRemaining
      let vm := { vm with
        physMem := memcpy vm.physMem (vm.deref pte + off currVa) (fun k => src (done + k)) n }
      putLoop vm src (done + n) ((currVa + n) % 2 ^ 32) (bytesRemaining - n)
  termination_by bytesRemaining
  decreasing_by
    have := bytesToCopy_pos currVa ‹_›
    omega

/-- `put_data`. -/
def putData (vm : Vm) (va : ℕ) (val : Option Bytes) (size : ℤ) : Vm × ℤ :=
  match val with
  | none => (vm, -1)
  | some src => if size ≤ 0 then (vm, -1) else putLoop vm src 0 va size.toNat

/-- The loop of `get_data`: `done` bytes of `dst` are filled. -/
def getLoop (vm : Vm) (dst : Bytes) (done currVa bytesRemaining : ℕ) : Vm × Bytes :=
  if bytesRemaining = 0 then (vm, dst)
  else
    match translate vm vm.pageDir currVa with
    | (vm, none) => (vm, dst)
    | (vm, some pte) =>
      let n := bytesToCopy currVa bytesRemaining
      let base := vm.deref pte + off currVa
      let dst := memcpy dst done (fun k => vm.physMem (base + k)) n
      getLoop vm dst (done + n) ((currVa + n) % 2 ^ 32) (bytesRemaining - n)
  termination_by bytesRemaining
  decreasing_by
    have := bytesToCopy_pos currVa ‹_›
    omega

/-- `get_data`: the buffer as the call leaves it. -/
def getData (vm : Vm) (va : ℕ) (val : Option Bytes) (size : ℤ) : Vm × Option Bytes :=
  match val with
  | none => (vm, none)
  | some dst =>
    if size ≤ 0 then (vm, some dst)
    else
      let r := getLoop vm dst 0 va size.toNat
      (r.1, some r.2)

/-! ### Calls of the library -/

/-- A call with its arguments. `val` is `none` for a null buffer. -/
inductive Call
  | nMalloc (numBytes : UInt32)
  | nFree (va : UInt32) (size : Int32)
  | putData (va : UInt32) (val : Option Bytes) (size : Int32)
  | getData (va : UInt32) (val : Option Bytes) (size : Int32)
  | translate (va : UInt32)

/-- What a call returns: an address (`none` for `NULL`), nothing, a status, the buffer that
was filled, or an entry pointer. -/
inductive Result
  | addr (va : Option ℕ)
  | void
  | code (r : ℤ)
  | buffer (val : Option Bytes)
  | ptr (p : Option PtePtr)

/-- The process: `none` while `phys_mem` is `NULL`. -/
abbrev Process := Option Vm

/-- A call on an initialised memory. -/
def Vm.call (vm : Vm) : Call → Vm × Result
  | .nMalloc numBytes =>
    if numBytes = 0 then (vm, .addr none)
    else
      let r := MyVm.nMalloc vm numBytes.toNat
      (r.1, .addr r.2)
  | .nFree va size => (MyVm.nFree vm va.toNat size.toInt, .void)
  | .putData va val size =>
    let r := MyVm.putData vm va.toNat val size.toInt
    (r.1, .code r.2)
  | .getData va val size =>
    let r := MyVm.getData vm va.toNat val size.toInt
    (r.1, .buffer r.2)
  | .translate va =>
    let r := MyVm.translate vm vm.pageDir va.toNat
    (r.1, .ptr r.2)

/-- A call before initialisation. `n_malloc` initialises the memory; a call that does not
reach `page_dir` returns; any other one dereferences a null pointer. -/
def callUninit (heap : Bytes) : Call → Option (Process × Result)
  | .nMalloc numBytes =>
    if numBytes = 0 then some (none, .addr none)
    else
      let r := (setPhysicalMem heap).call (.nMalloc numBytes)
      some (some r.1, r.2)
  | .nFree _ size => if roundUpPages (u32 size.toInt) = 0 then some (none, .void) else none
  | .putData _ val size =>
    if val.isNone ∨ size.toInt ≤ 0 then some (none, .code (-1)) else none
  | .getData _ val size =>
    if val.isNone ∨ size.toInt ≤ 0 then some (none, .buffer val) else none
  | .translate _ => none

/-- One call of the library; no result when it dereferences the null `page_dir`. -/
def call (heap : Bytes) : Process → Call → Option (Process × Result)
  | none, c => callUninit heap c
  | some vm, c =>
    let r := vm.call c
    some (some r.1, r.2)

end MyVm
