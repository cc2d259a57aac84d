import Cs416.Vm.Runs
import Mathlib.Order.Interval.Finset.Nat

/-!
# Concurrent allocation

`n_malloc` and `n_free` run by any number of threads on one memory. A call is cut where the
program takes or gives up a mutex: the sections of `n_malloc` are `set_physical_mem`,
`get_next_avail`, `allocate_phys_page` and the four parts of `map_page`, and `n_free` holds
`page_table_lock` from its first section to its last, but takes `phys_bit_lock`, `virt_bit_lock`
and `tlb_lock` for each page anew. A step of the system is one section of one thread.

The one update of a bitmap that runs without its mutex is the `clear_bit` of `n_free` for a page
table that has become empty. It is cut into the load of the byte and the store (`loadByte`,
`storeByte`), between which other threads may take `phys_bit_lock`.

A thread that is not interrupted does what the sequential functions do (`alone_nMalloc`,
`alone_nFree`).

`holder` and `live` record which thread was given which frame and which pages; no section reads
them. They say what a program may free, and what it is to hand out nothing twice (`NeverTwice`).
-/

open ByteMem Lts Function

namespace MyVm

namespace Allocator

/-! ### The sections of a call -/

/-- The locals of `n_malloc` in its loop. -/
structure MallocCall where
  numPages : ℕ
  baseVa : ℕ
  i : ℕ

/-- The locals of `n_free` in its loop, with what the thread returns behind it: a failed
`n_malloc` calls `n_free` before it returns `NULL`. -/
structure FreeCall where
  startVa : ℕ
  numPages : ℕ
  i : ℕ
  result : Result

namespace MallocCall

/-- `curr_va`. -/
def va (m : MallocCall) : ℕ := (m.baseVa + m.i * pgSize) % 2 ^ 32

/-- `i++`. -/
def advance (m : MallocCall) : MallocCall := { m with i := m.i + 1 }

/-- The virtual pages of the allocation. -/
def pages (m : MallocCall) : Finset ℕ :=
  Finset.Ico (m.baseVa / pgSize) (m.baseVa / pgSize + m.numPages)

end MallocCall

namespace FreeCall

/-- `va_u`. -/
def va (f : FreeCall) : ℕ := (f.startVa + f.i * pgSize) % 2 ^ 32

/-- `i++`. -/
def advance (f : FreeCall) : FreeCall := { f with i := f.i + 1 }

/-- The virtual pages that are still to be freed. -/
def pages (f : FreeCall) : Finset ℕ :=
  (Finset.Ico f.i f.numPages).image fun k => (f.startVa / pgSize + k) % numVirtPages

end FreeCall

/-- The section that comes next. -/
inductive Section
  /-- `set_physical_mem`. -/
  | setup (numPages : ℕ)
  /-- `get_next_avail`. -/
  | reserve (numPages : ℕ)
  /-- `allocate_phys_page` in the loop of `n_malloc`. -/
  | allocPage (m : MallocCall)
  /-- `map_page` takes `page_table_lock` and reads the directory entry. -/
  | lockTable (m : MallocCall) (pa : ℕ)
  /-- `allocate_phys_page` in `map_page`. -/
  | allocTable (m : MallocCall) (pa : ℕ)
  /-- The new table is zeroed and put into the directory. -/
  | newTable (m : MallocCall) (pa newTablePa : ℕ)
  /-- `page_table[pt_index] = pa_u`, and `page_table_lock` is given up. -/
  | setEntry (m : MallocCall) (pa pde : ℕ)
  /-- `set_bit(phys_bitmap, pfn)`. -/
  | markPhys (m : MallocCall) (pa : ℕ)
  /-- `set_bit(virt_bitmap, vpn)`. -/
  | markVirt (m : MallocCall) (pa : ℕ)
  /-- `TLB_add`. -/
  | addTlb (m : MallocCall) (pa : ℕ)
  /-- `n_free` takes `page_table_lock`. -/
  | lock (f : FreeCall)
  /-- The head of the loop of `n_free`, up to `page_table[pt_index] = 0`. -/
  | unmap (f : FreeCall)
  /-- `clear_bit(phys_bitmap, pfn)`. -/
  | clearPhys (f : FreeCall) (pde pte : ℕ)
  /-- `clear_bit(virt_bitmap, vpn)`. -/
  | clearVirt (f : FreeCall) (pde : ℕ)
  /-- `TLB_invalidate`. -/
  | invalidate (f : FreeCall) (pde : ℕ)
  /-- `page_table_empty`, and if so `page_dir[pd_index] = 0`. -/
  | checkTable (f : FreeCall) (pde : ℕ)
  /-- The load of `clear_bit(phys_bitmap, pt_pfn)`. -/
  | loadByte (f : FreeCall) (pde : ℕ)
  /-- Its store. -/
  | storeByte (f : FreeCall) (pde : ℕ) (byte : UInt8)
  /-- `memset(page_table, 0, PGSIZE)`. -/
  | zeroTable (f : FreeCall) (pde : ℕ)

/-- What a thread is doing. -/
inductive Thread
  | idle
  | running (sec : Section)
  | returned (r : Result)

/-- The rollback `n_free(base_va, i * PGSIZE)`. -/
def MallocCall.failed (m : MallocCall) : Thread :=
  .running (.lock ⟨m.baseVa, roundUpPages (u32 (toInt (m.i * pgSize))), 0, .addr none⟩)

/-- The head of the loop of `n_malloc`. -/
def MallocCall.loop (m : MallocCall) : Thread :=
  if m.i = m.numPages then .returned (.addr (some m.baseVa)) else .running (.allocPage m)

namespace Section

/-- One section. -/
def next (vm : Vm) : Section → Vm × Thread
  | .setup numPages =>
    (vm, if numPages = 0 then .returned (.addr none) else .running (.reserve numPages))
  | .reserve numPages =>
    match getNextAvail vm numPages with
    | none => (vm, .returned (.addr none))
    | some (baseVa, vm) => (vm, MallocCall.loop ⟨numPages, baseVa, 0⟩)
  | .allocPage m =>
    match allocatePhysPage vm with
    | none => (vm, m.failed)
    | some (pa, vm) => (vm, .running (.lockTable m pa))
  | .lockTable m pa =>
    let pde := vm.loadPde vm.pageDir (pdx m.va)
    (vm, .running (if pde = 0 then .allocTable m pa else .setEntry m pa pde))
  | .allocTable m pa =>
    match allocatePhysPage vm with
    | none => (vm, m.failed)
    | some (newTablePa, vm) => (vm, .running (.newTable m pa newTablePa))
  | .newTable m pa newTablePa =>
    (newPageTable vm vm.pageDir m.va newTablePa, .running (.setEntry m pa newTablePa))
  | .setEntry m pa pde => (vm.storeEntry pde (ptx m.va) pa, .running (.markPhys m pa))
  | .markPhys m pa => (vm.setPhysBit (pa >>> pfnShift), .running (.markVirt m pa))
  | .markVirt m pa => (vm.setVirtBit (m.va >>> pfnShift), .running (.addTlb m pa))
  | .addTlb m pa => (vm.countLookup.countMiss.addTlb m.va pa, m.advance.loop)
  | .lock f => (vm, .running (.unmap f))
  | .unmap f =>
    if f.i = f.numPages then (vm, .returned f.result)
    else
      let pde := vm.loadPde vm.pageDir (pdx f.va)
      if pde = 0 then (vm, .running (.unmap f.advance))
      else
        let pte := vm.loadPte pde (ptx f.va)
        if pte = 0 then (vm, .running (.unmap f.advance))
        else (vm.storeEntry pde (ptx f.va) 0, .running (.clearPhys f pde pte))
  | .clearPhys f pde pte => (vm.clearPhysBit (pte >>> pfnShift), .running (.clearVirt f pde))
  | .clearVirt f pde => (vm.clearVirtBit (f.va >>> pfnShift), .running (.invalidate f pde))
  | .invalidate f pde => (vm.invalidateTlb f.va, .running (.checkTable f pde))
  | .checkTable f pde =>
    if pageTableEmpty vm pde then
      (vm.storeEntry vm.pageDir (pdx f.va) 0, .running (.loadByte f pde))
    else (vm, .running (.unmap f.advance))
  | .loadByte f pde =>
    (vm, .running (.storeByte f pde (vm.physBitmap ((pde >>> pfnShift) / 8))))
  | .storeByte f pde byte =>
    let ptPfn := pde >>> pfnShift
    ({ vm with
        physBitmap := ByteMem.storeByte vm.physBitmap (ptPfn / 8) (clearMask byte (ptPfn % 8)) },
      .running (.zeroTable f pde))
  | .zeroTable f pde => (vm.zeroPage pde, .running (.unmap f.advance))

/-- The section begins with `pthread_mutex_lock(&page_table_lock)`. -/
def locks : Section → Bool
  | .lockTable _ _ | .lock _ => true
  | _ => false

/-- The thread holds `page_table_lock` when the section begins. -/
def inside : Section → Bool
  | .allocTable _ _ | .newTable _ _ _ | .setEntry _ _ _ => true
  | .unmap _ | .clearPhys _ _ _ | .clearVirt _ _ | .invalidate _ _ | .checkTable _ _ => true
  | .loadByte _ _ | .storeByte _ _ _ | .zeroTable _ _ => true
  | _ => false

/-- The number of the frame that `allocate_phys_page` returns in the section. -/
def allocates (vm : Vm) : Section → Option ℕ
  | .allocPage _ | .allocTable _ _ => (allocatePhysPage vm).map fun x => x.1 / pgSize
  | _ => none

/-- The number of the frame whose bit the section clears. -/
def releases : Section → Option ℕ
  | .clearPhys _ _ pte => some (pte >>> pfnShift)
  | .storeByte _ pde _ => some (pde >>> pfnShift)
  | _ => none

/-- The pages of the allocation that the section returns. -/
def grants : Section → Option (Finset ℕ)
  | .addTlb m _ => if m.advance.i = m.numPages then some m.pages else none
  | _ => none

end Section

def Thread.inside : Thread → Bool
  | .running sec => sec.inside
  | _ => false

/-! ### A call on its own -/

/-- The sections of one thread, with no other thread between them. -/
def Alone : Vm × Thread → Vm × Thread → Prop :=
  Relation.ReflTransGen fun a b => ∃ sec, a.2 = .running sec ∧ b = sec.next a.1

theorem Alone.next {vm : Vm} {sec : Section} {b : Vm × Thread} (h : Alone (sec.next vm) b) :
    Alone (vm, .running sec) b := h.head ⟨sec, rfl, rfl⟩

theorem pageDir_allocatePhysPage {vm vm' : Vm} {pa : ℕ}
    (h : allocatePhysPage vm = some (pa, vm')) : vm'.pageDir = vm.pageDir := by
  obtain ⟨hnone, -⟩ | ⟨f, -, hsome, -⟩ := Vm.space_allocatePhysPage vm
  · rw [hnone] at h
    exact absurd h (by simp)
  · rw [hsome] at h
    obtain ⟨-, rfl⟩ := Prod.mk.inj (Option.some.inj h)
    rfl

/-- One iteration of the loop of `n_free`. -/
theorem alone_freePage (vm : Vm) {f : FreeCall} (hi : f.i ≠ f.numPages) :
    Alone (vm, .running (.unmap f)) (freePage vm f.va, .running (.unmap f.advance)) := by
  refine .next ?_
  rw [freePage, Section.next, if_neg hi]
  by_cases hpde : vm.loadPde vm.pageDir (pdx f.va) = 0
  · rw [if_pos hpde, if_pos hpde]
    exact .refl
  rw [if_neg hpde, if_neg hpde]
  by_cases hpte : vm.loadPte (vm.loadPde vm.pageDir (pdx f.va)) (ptx f.va) = 0
  · rw [if_pos hpte, if_pos hpte]
    exact .refl
  rw [if_neg hpte, if_neg hpte]
  -- the two bitmaps and the TLB, then the look at the table
  refine .next (.next (.next (.next ?_)))
  dsimp only [Section.next]
  rw [← unmapPage]
  by_cases hempty : pageTableEmpty
      (unmapPage vm (vm.loadPde vm.pageDir (pdx f.va))
        (vm.loadPte (vm.loadPde vm.pageDir (pdx f.va)) (ptx f.va)) f.va)
      (vm.loadPde vm.pageDir (pdx f.va)) = true
  · -- nobody comes between the load and the store
    rw [if_pos hempty, if_pos hempty]
    exact .next (.next (.next .refl))
  · rw [if_neg hempty, if_neg hempty]
    exact .refl

/-- `n_free` from `lock` to its return. -/
theorem alone_free (vm : Vm) (startVa n : ℕ) (result : Result) :
    Alone (vm, .running (.lock ⟨startVa, n, 0, result⟩))
      (freePages vm startVa n, .returned result) := by
  have hloop : ∀ i ≤ n, Alone (vm, .running (.unmap ⟨startVa, n, 0, result⟩))
      (freePages vm startVa i, .running (.unmap ⟨startVa, n, i, result⟩)) := by
    intro i
    induction i with
    | zero => exact fun _ => .refl
    | succ i ih =>
      intro hi
      have hne : i ≠ n := Nat.ne_of_lt hi
      exact (ih (Nat.le_of_lt hi)).trans (alone_freePage (f := ⟨startVa, n, i, result⟩) _ hne)
  have hreturn : Alone (freePages vm startVa n, .running (.unmap ⟨startVa, n, n, result⟩))
      (freePages vm startVa n, .returned result) := by
    refine .next ?_
    rw [Section.next, if_pos rfl]
    exact .refl
  exact .next ((hloop n le_rfl).trans hreturn)

/-- `map_page` behind the read of the directory. -/
theorem alone_mapPageIn (vm : Vm) (m : MallocCall) (pa pde : ℕ) :
    Alone (vm, .running (.setEntry m pa pde)) (mapPageIn vm pde m.va pa, m.advance.loop) :=
  .next (.next (.next (.next .refl)))

/-- The loop of `n_malloc`, with `n` pages to go. -/
theorem alone_mallocPages (n : ℕ) (vm : Vm) (m : MallocCall) (hn : m.i + n = m.numPages) :
    Alone (vm, m.loop) ((mallocPages vm m.baseVa m.i n).1,
      .returned (.addr (mallocPages vm m.baseVa m.i n).2)) := by
  -- on the pages to go; a failure of either allocation ends in `n_free`
  induction n generalizing vm m with
  | zero =>
    rw [MallocCall.loop, if_pos (show m.i = m.numPages from hn)]
    exact .refl
  | succ n ih =>
    have hnext : m.advance.i + n = m.advance.numPages := by
      rw [← show m.i + (n + 1) = m.advance.numPages from hn]
      exact Nat.add_right_comm m.i 1 n
    rw [MallocCall.loop, if_neg (by omega)]
    refine .next ?_
    rw [mallocPages, Section.next]
    cases halloc : allocatePhysPage vm with
    | none => exact alone_free vm m.baseVa _ _
    | some r =>
      obtain ⟨pa, vm₁⟩ := r
      refine .next ?_
      dsimp only [Section.next]
      rw [mapPage, ← MallocCall.va]
      -- `map_page` looks whether the page table exists
      by_cases hpde : vm₁.loadPde vm₁.pageDir (pdx m.va) = 0
      · rw [if_pos hpde, if_pos hpde]
        refine .next ?_
        rw [Section.next]
        cases halloc' : allocatePhysPage vm₁ with
        | none => exact alone_free vm₁ m.baseVa _ _
        | some r' =>
          obtain ⟨newTablePa, vm₂⟩ := r'
          have hdir : vm₂.pageDir = vm₁.pageDir := pageDir_allocatePhysPage halloc'
          refine .next ((alone_mapPageIn _ m pa newTablePa).trans ?_)
          rw [hdir]
          exact ih _ m.advance hnext
      · rw [if_neg hpde, if_neg hpde]
        exact (alone_mapPageIn vm₁ m pa _).trans (ih _ m.advance hnext)

/-- **An uninterrupted `n_malloc` is the sequential one**, on an initialised memory. -/
theorem alone_nMalloc (vm : Vm) (numBytes : ℕ) :
    Alone (vm, .running (.setup (roundUpPages numBytes)))
      ((nMalloc vm numBytes).1, .returned (.addr (nMalloc vm numBytes).2)) := by
  refine .next ?_
  rw [nMalloc, Section.next]
  by_cases hn : roundUpPages numBytes = 0
  · rw [if_pos hn, if_pos hn]
    exact .refl
  rw [if_neg hn, if_neg hn]
  refine .next ?_
  rw [Section.next]
  cases getNextAvail vm (roundUpPages numBytes) with
  | none => exact .refl
  | some r =>
    obtain ⟨baseVa, vm'⟩ := r
    exact alone_mallocPages _ vm' ⟨roundUpPages numBytes, baseVa, 0⟩ (Nat.zero_add _)

/-- **An uninterrupted `n_free` is the sequential one.** -/
theorem alone_nFree (vm : Vm) (va : ℕ) (size : ℤ) :
    Alone (vm, .running (.lock ⟨va, roundUpPages (u32 size), 0, .void⟩))
      (nFree vm va size, .returned .void) :=
  alone_free vm va (roundUpPages (u32 size)) .void

/-! ### The system -/

/-- The memory, `page_table_lock` and the threads. -/
structure State (T : Type) where
  /-- `none` while `phys_mem` is `NULL`. -/
  mem : Process
  pageTableLock : Option T
  threads : T → Thread
  /-- The thread to which the frame was returned, until its bit is cleared. -/
  holder : ℕ → Option T
  /-- The allocations that were returned and not yet freed, each with the pages left of it. -/
  live : List (T × Finset ℕ)

/-- A thread calls `n_malloc` or `n_free`, or performs its next section. -/
inductive Move (T : Type)
  | malloc (t : T) (numBytes : UInt32)
  | free (t : T) (va : UInt32) (size : Int32)
  | run (t : T)

section

variable {T : Type} [DecidableEq T]

namespace State

/-- The pages belong to allocations of the thread. -/
def Owns (s : State T) (t : T) (pages : Finset ℕ) : Prop :=
  (∃ a ∈ s.live, a.1 = t) ∧ ∀ v ∈ pages, ∃ a ∈ s.live, a.1 = t ∧ v ∈ a.2

instance (s : State T) (t : T) (pages : Finset ℕ) : Decidable (s.Owns t pages) :=
  inferInstanceAs (Decidable (_ ∧ _))

/-- The memory the section works on. -/
def memory (heap : Bytes) (s : State T) : Section → Process
  | .setup _ => some (s.mem.getD (setPhysicalMem heap))
  | _ => s.mem

/-- After the section `sec` of the thread `t`, which begins in `vm`. -/
def after (s : State T) (t : T) (sec : Section) (vm : Vm) : State T where
  mem := some (sec.next vm).1
  pageTableLock :=
    if (sec.next vm).2.inside then some t else if sec.inside then none else s.pageTableLock
  threads := update s.threads t (sec.next vm).2
  holder f :=
    if sec.releases = some f then none
    else if sec.allocates vm = some f then some t
    else s.holder f
  live :=
    match sec.grants with
    | some pages => (t, pages) :: s.live
    | none => s.live

/-- One step of one thread. A thread calls `n_free` on pages of its own allocations. -/
def step (heap : Bytes) (s : State T) : Move T → Option (State T)
  | .malloc t numBytes =>
    let called : Thread :=
      if numBytes = 0 then .returned (.addr none)
      else .running (.setup (roundUpPages numBytes.toNat))
    match s.threads t with
    | .running _ => none
    | _ => some { s with threads := update s.threads t called }
  | .free t va size =>
    let f : FreeCall := ⟨va.toNat, roundUpPages (u32 size.toInt), 0, .void⟩
    match s.threads t with
    | .running _ => none
    | _ =>
      if s.Owns t f.pages then
        some { s with
          threads := update s.threads t (.running (.lock f))
          live := s.live.map fun a => if a.1 = t then (t, a.2 \ f.pages) else a }
      else none
  | .run t =>
    match s.threads t with
    | .running sec =>
      if sec.locks = true ∧ s.pageTableLock.isSome = true then none
      else (s.memory heap sec).map fun vm => s.after t sec vm
    | _ => none

/-- Before the first call. -/
def start : State T where
  mem := none
  pageTableLock := none
  threads _ := .idle
  holder _ := none
  live := []

end State

/-- The threads that allocate and free, on what `malloc` returned for `phys_mem`. -/
def allocator (T : Type) [DecidableEq T] (heap : Bytes) : System (State T) (Move T) where
  init s := s = .start
  step s l s' := s.step heap l = some s'

end

variable {T : Type}

/-- **Nothing is handed out twice.** -/
structure NeverTwice (s : State T) : Prop where
  /-- A frame that `allocate_phys_page` returns to `t` is that of no mapped page and no page
  table, and no other thread holds it. -/
  frame : ∀ t sec vm f, s.threads t = .running sec → s.mem = some vm →
    sec.allocates vm = some f → (∀ v, vm.space.page v ≠ f * pgSize) ∧
      (∀ i, vm.space.dir i ≠ f * pgSize) ∧ ∀ t', t' ≠ t → s.holder f ≠ some t'
  /-- Live allocations share no page. -/
  live : s.live.Pairwise fun a b => Disjoint a.2 b.2

/-- If `t` is about to allocate a frame in the loop of `n_malloc`, then the first clear bit of
`phys_bitmap` is not in a byte that `n_free` has loaded and not yet stored. -/
def Undisturbed (s : State T) : Move T → Prop
  | .run t => ∀ m vm f, s.threads t = .running (.allocPage m) → s.mem = some vm →
    getBit vm.physBitmap f = 0 → (∀ g < f, getBit vm.physBitmap g = 1) →
    ∀ t' fr pde byte, s.threads t' = .running (.storeByte fr pde byte) →
      f / 8 ≠ (pde >>> pfnShift) / 8
  | _ => True

end Allocator

end MyVm
