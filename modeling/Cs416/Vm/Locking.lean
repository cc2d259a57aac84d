import Cs416.Lib.LockProgram

/-!
# The mutexes of the memory library

The functions of the library as lock programs: which mutex each one takes and gives up, which
shared data it touches in between, and where it may branch, loop and return. Any number of
threads call them in any order (`library`).

Two mutexes are taken under another one: `phys_bit_lock` under `setup_lock` and under
`page_table_lock`, and in `n_free` also `virt_bit_lock` and `tlb_lock` under `page_table_lock`.
With the ranks of `discipline` nothing ever deadlocks (`deadlock_free`). Most shared data is
touched under its mutex only; the accesses that are not are listed in `unlocked`, and every race
has one of them on one side (`races_unlocked`).

What is computed, and with it which branch is taken, is open here. The models that carry the data
are runs of these programs; see `Cs416.Vm.LockRefinement`.
-/

open Lts LockProgram Function

namespace MyVm

namespace Locking

/-- The mutexes of the library. -/
inductive Mutex
  | setupLock
  | pageTableLock
  | tlbLock
  | physBitLock
  | virtBitLock
  deriving DecidableEq

instance : Fintype Mutex where
  elems := {.setupLock, .pageTableLock, .tlbLock, .physBitLock, .virtBitLock}
  complete m := by cases m <;> decide

/-- The data that the threads share. -/
inductive Var
  /-- `phys_mem`, the numbers of pages, `page_dir` and the pointers to the bitmaps. -/
  | globals
  | physBitmap
  | virtBitmap
  /-- The directory and the page tables. -/
  | pageTables
  | tlbStore
  | tlbCounters
  /-- The frames that are mapped. -/
  | pages
  deriving DecidableEq

/-- The mutex of the data; the pages have none. -/
def Var.mutex : Var → Option Mutex
  | .globals => some .setupLock
  | .physBitmap => some .physBitLock
  | .virtBitmap => some .virtBitLock
  | .pageTables => some .pageTableLock
  | .tlbStore => some .tlbLock
  | .tlbCounters => some .tlbLock
  | .pages => none

/-- The accesses of the program text to shared data. -/
inductive Site
  /-- `get_bit` and `set_bit` of `allocate_phys_page`. -/
  | allocGetBit | allocSetBit
  /-- `set_physical_mem`: the test of `phys_mem`, the assignments to the globals, the `memset` of
  the directory and the loop over the TLB. -/
  | setupTest | setupGlobals | setupDirectory | setupTlb
  /-- The search and the store of `TLB_add`. -/
  | addSearch | addStore
  /-- The search of `TLB_check`. -/
  | checkSearch
  /-- The search of `TLB_invalidate` and `valid = false`. -/
  | invalidateSearch | invalidateStore
  /-- The quotient in `print_TLB_missrate`. -/
  | printCounters
  /-- `translate`: the counters, the directory entry and the table entry. -/
  | countLookup | countMiss | walkPde | walkPte
  /-- `map_page`: the directory entry, the new table, the table entry, the bitmaps and the
  counters. -/
  | mapPde | mapNewTable | mapPte | mapSetPhys | mapSetVirt | mapCount
  /-- The search of `get_next_avail` and its `set_bit`. -/
  | reserveSearch | reserveSet
  /-- `n_free`: the entries, the bitmaps, the look at the table, and what is done with an empty
  one. -/
  | freePde | freePte | freeClearEntry | freeClearPhys | freeClearVirt
  | freeLookAtTable | freeDirectory | freeClearTable | freeZeroTable
  /-- `*pte` of `put_data` and `get_data`, in a slot of the TLB or in a page table. -/
  | readSlot | readEntry
  /-- The `memcpy` of `put_data` and of `get_data`. -/
  | copyIn | copyOut
  /-- A read of a global anywhere but in `set_physical_mem`. -/
  | readGlobals
  deriving DecidableEq

/-- What is accessed. -/
def Site.var : Site → Var
  | .allocGetBit | .allocSetBit | .mapSetPhys | .freeClearPhys | .freeClearTable => .physBitmap
  | .setupTest | .setupGlobals | .readGlobals => .globals
  | .addSearch | .addStore | .checkSearch | .invalidateSearch | .invalidateStore | .setupTlb
  | .readSlot => .tlbStore
  | .printCounters | .countLookup | .countMiss | .mapCount => .tlbCounters
  | .walkPde | .walkPte | .mapPde | .mapNewTable | .mapPte | .freePde | .freePte | .freeClearEntry
  | .freeLookAtTable | .freeDirectory | .freeZeroTable | .setupDirectory | .readEntry => .pageTables
  | .mapSetVirt | .reserveSearch | .reserveSet | .freeClearVirt => .virtBitmap
  | .copyIn | .copyOut => .pages

/-- The accesses that are made without the mutex of the data. -/
def unlocked : List Site :=
  [.setupDirectory, .setupTlb, .printCounters, .mapCount, .freeClearTable, .readSlot, .readEntry,
    .copyIn, .copyOut, .readGlobals]

/-- `setup_lock` before `page_table_lock` before the others. -/
def discipline : Discipline Mutex Site where
  rank
    | .setupLock => 0
    | .pageTableLock => 1
    | _ => 2
  allows a held := a ∈ unlocked ∨ ∃ m ∈ held, a.var.mutex = some m

abbrev Program := Cmd Mutex Site

/-! ### The functions

The paths that reach `exit` are left out: they end the process. -/

/-- `allocate_phys_page`. -/
def allocatePhysPage : Program := block [
  .lock .physBitLock,
  .touch .readGlobals,
  .loop (block [
    .touch .allocGetBit,
    .choice (block [.touch .allocSetBit, .unlock .physBitLock, .ret]) .skip]),
  .unlock .physBitLock]

/-- `set_physical_mem`. -/
def setPhysicalMem : Program := block [
  .lock .setupLock,
  .touch .setupTest,
  .choice (block [.unlock .setupLock, .ret]) .skip,
  .touch .setupGlobals,
  .call allocatePhysPage,
  .touch .setupGlobals,
  .touch .setupDirectory,
  .touch .setupTlb,
  .unlock .setupLock]

/-- `TLB_add`. -/
def tlbAdd : Program := block [
  .choice .ret .skip,
  .lock .tlbLock,
  .loop (block [
    .touch .addSearch,
    .choice (block [.touch .addStore, .unlock .tlbLock, .ret]) .skip]),
  .touch .addStore,
  .unlock .tlbLock]

/-- The search of `TLB_check`. -/
def checkTail : List Program := [
  .loop (block [
    .touch .checkSearch,
    .choice (block [.unlock .tlbLock, .ret]) .skip]),
  .unlock .tlbLock]

/-- `TLB_check`. -/
def tlbCheck : Program := block (.choice .ret .skip :: .lock .tlbLock :: checkTail)

/-- `TLB_invalidate`; the loop may end with its `break`. -/
def tlbInvalidate : Program := block [
  .choice .ret .skip,
  .lock .tlbLock,
  .loop (.touch .invalidateSearch),
  .choice (.touch .invalidateStore) .skip,
  .unlock .tlbLock]

/-- `print_TLB_missrate`. -/
def printTlbMissrate : Program := .touch .printCounters

/-- The walk of `translate`, behind `pthread_mutex_lock(&page_table_lock)`. -/
def walk : Program := block [
  .touch .walkPde,
  .choice (block [.unlock .pageTableLock, .ret]) .skip,
  .touch .readGlobals,
  .touch .walkPte,
  .choice (block [.unlock .pageTableLock, .ret]) .skip,
  .unlock .pageTableLock,
  .call tlbAdd]

/-- The counters of `translate` behind `tlb_lookups++`. -/
def countTail : List Program := [
  .choice (block [.unlock .tlbLock, .ret]) .skip,
  .touch .countMiss,
  .unlock .tlbLock]

/-- The counters of `translate`. -/
def countTranslate : Program := block (.lock .tlbLock :: .touch .countLookup :: countTail)

/-- `translate`. -/
def translate : Program := block [.call tlbCheck, countTranslate, .lock .pageTableLock, walk]

/-- `map_page` behind `page_table[pt_index] = pa_u`. -/
def mapTail : List Program := [
  .lock .physBitLock, .touch .readGlobals, .touch .mapSetPhys, .unlock .physBitLock,
  .lock .virtBitLock, .touch .readGlobals, .touch .mapSetVirt, .unlock .virtBitLock,
  .touch .mapCount,
  .call tlbAdd]

/-- `map_page` where the page table exists. -/
def mapEntry : List Program :=
  .touch .readGlobals :: .touch .mapPte :: .unlock .pageTableLock :: mapTail

/-- `map_page` puts the new page table into the directory. -/
def mapNewTail : List Program := [
  .choice (block [.unlock .pageTableLock, .ret]) .skip,
  .touch .readGlobals,
  .touch .mapNewTable]

/-- `map_page` makes a page table. -/
def mapNewTable : Program := block (.call allocatePhysPage :: mapNewTail)

/-- `map_page`. -/
def mapPage : Program :=
  block (.lock .pageTableLock :: .touch .mapPde :: .choice mapNewTable .skip :: mapEntry)

/-- `get_next_avail`. -/
def getNextAvail : Program := block [
  .lock .virtBitLock,
  .touch .readGlobals,
  .loop (block [
    .touch .reserveSearch,
    .choice (block [.loop (.touch .reserveSet), .unlock .virtBitLock, .ret]) .skip]),
  .unlock .virtBitLock]

/-- What `n_free` does when `page_table_empty`. -/
def freeTable : List Program := [.touch .freeClearTable, .touch .freeZeroTable]

/-- The body of the loop of `n_free` behind `page_table[pt_index] = 0`. -/
def freeTail : List Program := [
  .lock .physBitLock, .touch .freeClearPhys, .unlock .physBitLock,
  .lock .virtBitLock, .touch .freeClearVirt, .unlock .virtBitLock,
  .call tlbInvalidate,
  .touch .freeLookAtTable,
  .choice (block (.touch .freeDirectory :: freeTable)) .skip]

/-- The body of the loop of `n_free`; `continue` where there is no table or no page. -/
def freePage : Program := block [
  .touch .readGlobals,
  .touch .freePde,
  .choice .skip (block [
    .touch .freePte,
    .choice .skip (block (.touch .freeClearEntry :: freeTail))])]

/-- `n_free` behind its first line. -/
def freeLoop : List Program := [.loop freePage, .unlock .pageTableLock]

/-- `n_free`. -/
def nFree : Program := block (.lock .pageTableLock :: freeLoop)

/-- `n_malloc` gives up: it frees what it has mapped and returns `NULL`. -/
def rollback : Program := block [.call nFree, .ret]

/-- The body of the loop of `n_malloc` behind `allocate_phys_page`. -/
def mallocTail : List Program := [
  .choice rollback .skip,
  .touch .readGlobals,
  .call mapPage,
  .choice rollback .skip]

/-- The body of the loop of `n_malloc`. -/
def mallocPage : Program := block (.call allocatePhysPage :: mallocTail)

/-- `n_malloc` behind `set_physical_mem`. -/
def mallocReserve : List Program := [
  .choice .ret .skip,
  .call getNextAvail,
  .choice .ret .skip,
  .loop mallocPage]

/-- `n_malloc`. -/
def nMalloc : Program :=
  block (.choice .ret .skip :: .touch .readGlobals :: .choice (.call setPhysicalMem) .skip
    :: mallocReserve)

/-- The body of the loops of `put_data` and `get_data` behind `translate`. -/
def copyTail (copy : Site) : List Program := [
  .choice .ret .skip,
  .choice (.touch .readSlot) (.touch .readEntry),
  .touch .readGlobals,
  .touch copy]

/-- The body of the loops of `put_data` and `get_data`. -/
def copyPage (copy : Site) : Program :=
  block (.touch .readGlobals :: .call translate :: copyTail copy)

/-- `put_data` and `get_data`. -/
def copyData (copy : Site) : Program := block [.choice .ret .skip, .loop (copyPage copy)]

/-- `put_data`. -/
def putData : Program := copyData .copyIn

/-- `get_data`. -/
def getData : Program := copyData .copyOut

/-- `mat_mult`. -/
def matMult : Program :=
  .loop (.loop (block [.loop (block [.call getData, .call getData]), .call putData]))

/-- The functions that the header offers. -/
def functions : List Program :=
  [setPhysicalMem, tlbAdd, tlbCheck, printTlbMissrate, translate, mapPage, getNextAvail, nMalloc,
    nFree, putData, getData, matMult, allocatePhysPage, tlbInvalidate]

/-- A call of one of the functions. -/
def anyCall : Program := functions.foldr (fun f rest => .choice (.call f) rest) .skip

/-- A thread that calls the library as often as it likes. -/
def client : Program := .loop anyCall

/-- Any number of threads that call the library. -/
def library (T : Type) [DecidableEq T] :
    System (LockProgram.State T Mutex Site) (T × Action Mutex Site) :=
  threads fun _ => client

/-- Every function returns with the mutexes it was called with, takes them upwards and touches the
data under its mutex, but for the accesses of `unlocked`. -/
theorem wp_client : discipline.wp ∅ client (fun h => h = ∅) ∅ := by decide

section

variable {T : Type} [DecidableEq T] {s : LockProgram.State T Mutex Site}

theorem fits_library (hr : Reachable (library T) s) : s.Fits discipline :=
  fits_of_reachable (fun _ => wp_client) hr

/-- **The mutexes of the library do not deadlock.** -/
theorem deadlock_free (hr : Reachable (library T) s) (t : T) :
    (∀ m th, Next (s.threads t) (.lock m) th → s.owner m ≠ some t) ∧
    (∀ m th, Next (s.threads t) (.unlock m) th → s.owner m = some t) ∧
    (s.threads t = [[client]] → ∀ m, s.owner m ≠ some t) ∧
    (s.threads t ≠ [] → ∃ u, Relation.ReflTransGen s.WaitsFor t u ∧ s.CanStep u) := by
  have hs := fits_library hr
  refine ⟨fun m th hn => hs.not_own hn, fun m th hn => hs.owner_of_unlock hn, ?_,
    hs.exists_unblocked⟩
  intro ht m hm
  have hheld : s.held t = ∅ := hs.held_loop ht
  have hmem : m ∈ s.held t := State.mem_held.mpr hm
  rw [hheld] at hmem
  exact Finset.notMem_empty m hmem

/-- **Races.** When two threads are about to touch the same data, one of the accesses is one of
`unlocked`. -/
theorem races_unlocked (hr : Reachable (library T) s) {t u : T} (htu : t ≠ u) {a b : Site}
    {th th' : LockProgram.Thread Mutex Site} (ha : Next (s.threads t) (.touch a) th)
    (hb : Next (s.threads u) (.touch b) th') (hvar : a.var = b.var) :
    a ∈ unlocked ∨ b ∈ unlocked := by
  have hs := fits_library hr
  have hta := hs.allows_of_touch ha
  have hub := hs.allows_of_touch hb
  rw [discipline, decide_eq_true_eq] at hta hub
  rcases hta with hta | ⟨m, hm, hma⟩
  · exact .inl hta
  rcases hub with hub | ⟨m', hm', hmb⟩
  · exact .inr hub
  -- both accesses are under the one mutex of the data
  obtain rfl : m = m' := Option.some.inj (hma.symm.trans (hvar ▸ hmb))
  exact absurd (Option.some.inj ((State.mem_held.mp hm).symm.trans (State.mem_held.mp hm'))) htu

/-- The decisions of a client that calls the function with the number `n`. -/
def calling (n : ℕ) : List Bool := true :: (List.replicate n false ++ [true])

/-- A thread in `translate`, about to count a lookup. -/
def atCountLookup : LockProgram.Thread Mutex Site :=
  [[.touch .countLookup, block countTail, block [.lock .pageTableLock, walk]], [client]]

/-- One thread is about to count a lookup, and the other goes to `th` without `tlb_lock`. -/
theorem reachable_counting (th : LockProgram.Thread Mutex Site) {as : List (Action Mutex Site)}
    (hp : Performs [[client]] as th) (hh : heldAfter as ∅ = some ∅)
    (hfree : Action.lock Mutex.tlbLock ∉ as) :
    ∃ s : LockProgram.State Bool Mutex Site, Reachable (library Bool) s ∧
      s.threads true = atCountLookup ∧ s.threads false = th ∧
      s.owner .tlbLock = some true := by
  have hnone : ∀ t, (LockProgram.State.start fun _ : Bool => client).held t = ∅ := by decide
  have hcount : Performs [[client]] _ atCountLookup :=
    .of_follow 80 (calling 4 ++ [false, false]) rfl
  obtain ⟨s₁, h₁, hth₁, hheld₁⟩ := reachable_performs (t := true) (h := {.tlbLock})
    (Reachable.start rfl : Reachable (library Bool) (.start fun _ => client)) hcount
    (by rw [hnone]; rfl) (by rintro m - u - ⟨⟩)
  have howner : ∀ m, s₁.owner m = some true → m = .tlbLock := by
    intro m hm
    have hmem : m ∈ s₁.held true := State.mem_held.mpr hm
    rw [hheld₁, if_pos rfl] at hmem
    exact Finset.mem_singleton.mp hmem
  have hfalse : s₁.threads false = [[client]] := by rw [hth₁]; rfl
  obtain ⟨s₂, h₂, hth₂, hheld₂⟩ := reachable_performs (t := false) (h := ∅) h₁
    (by rw [hfalse]; exact hp) (by rw [hheld₁, if_neg (by decide), hnone]; exact hh) (by
      rintro m hm (- | -) hne hown
      · exact hne rfl
      · rw [howner m hown] at hm
        exact hfree hm)
  refine ⟨s₂, h₂, by rw [hth₂, update_of_ne (by decide), hth₁]; rfl, by rw [hth₂, update_self], ?_⟩
  rw [← State.mem_held, hheld₂, if_neg (by decide), hheld₁, if_pos rfl]
  exact Finset.mem_singleton_self _

/-- A thread waits for `tlb_lock` while another counts a lookup. -/
theorem deadlock_free_tlb : ∃ s, Reachable (library Bool) s ∧ s.WaitsFor false true ∧
    ∃ u, Relation.ReflTransGen s.WaitsFor false u ∧ s.CanStep u := by
  obtain ⟨s, hr, -, hth, howner⟩ := reachable_counting
    [[.lock .tlbLock, block checkTail], [client]]
    (.of_follow 80 (calling 2 ++ [false]) rfl) rfl (by decide)
  refine ⟨s, hr, ⟨.tlbLock, [[block checkTail], [client]], ?_, howner⟩,
    (deadlock_free hr false).2.2.2 ?_⟩
  · rw [hth]
    exact .lock
  · rw [hth]
    exact List.cons_ne_nil _ _

/-- The counters are updated in `map_page` while `translate` updates them under `tlb_lock`. -/
theorem races_unlocked_counters : ∃ (s : LockProgram.State Bool Mutex Site)
    (th th' : LockProgram.Thread Mutex Site), Reachable (library Bool) s ∧
      Next (s.threads true) (.touch .countLookup) th ∧
      Next (s.threads false) (.touch .mapCount) th' ∧
      (Site.countLookup ∈ unlocked ∨ Site.mapCount ∈ unlocked) := by
  obtain ⟨s, hr, hth, hth', -⟩ := reachable_counting
    [[.touch .mapCount, block (mapTail.drop 9)], [client]]
    (.of_follow 80 (calling 5 ++ [false]) rfl) rfl (by decide)
  have ha : Next (s.threads true) (.touch .countLookup)
      [[block countTail, block [.lock .pageTableLock, walk]], [client]] := by
    rw [hth]
    exact .touch
  have hb : Next (s.threads false) (.touch .mapCount)
      [[block (mapTail.drop 9)], [client]] := by
    rw [hth']
    exact .touch
  exact ⟨s, _, _, hr, ha, hb, races_unlocked hr (by decide) ha hb rfl⟩

end

end Locking

end MyVm
