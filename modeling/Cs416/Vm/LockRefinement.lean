import Cs416.Vm.ConcurrentAccess
import Cs416.Vm.FrameHandout
import Cs416.Vm.Locking

/-!
# The sections as paths of the lock programs

`allocator` and `accesses` carry the data of the memory and cut a call into sections. Here each
section is a path of the lock program of its function (`goes_section`, `goes_access`), so a run of
either system is a run of the lock programs in which nobody interrupts a section, with
`page_table_lock` held in the same places (`allocator_locks`, `accesses_locks`).

A path is given by its decisions: one for each branch that is taken and for each time a loop is
entered or left.
-/

open Lts LockProgram Function

namespace MyVm

namespace Locking

/-! ### The sections of `n_malloc` and `n_free` -/

/-- Behind `map_page` in `n_malloc`. -/
def mapCallers : LockProgram.Thread Mutex Site :=
  [[block [.choice rollback .skip], .loop mallocPage, .skip], [client]]

/-- Behind `n_free`: the client, or one of the two places in `n_malloc`. -/
def freeCallers (atAlloc : Bool) : Result → LockProgram.Thread Mutex Site
  | .addr _ =>
    [[block [.ret], block (if atAlloc then mallocTail.drop 1 else []), .loop mallocPage, .skip],
      [client]]
  | _ => [[client]]

/-- The loop of `n_free`, behind the commands `k` of its body. -/
def inFree (atAlloc : Bool) (r : Result) (k : List Program) : LockProgram.Thread Mutex Site :=
  (k ++ [.loop freePage, block [.unlock .pageTableLock]]) :: freeCallers atAlloc r

/-- Where a thread of the allocator is in the lock program. -/
def ofSection (atAlloc : Bool) : Allocator.Section → LockProgram.Thread Mutex Site
  | .setup _ => [[nMalloc], [client]]
  | .reserve _ => [[block mallocReserve], [client]]
  | .allocPage _ => [[mallocPage, .loop mallocPage, .skip], [client]]
  | .lockTable _ _ => [mapPage] :: mapCallers
  | .allocTable _ _ => [mapNewTable, block mapEntry] :: mapCallers
  | .newTable _ _ _ => [block mapNewTail, block mapEntry] :: mapCallers
  | .setEntry _ _ _ => [block mapEntry] :: mapCallers
  | .markPhys _ _ => [block mapTail] :: mapCallers
  | .markVirt _ _ => [block (mapTail.drop 4)] :: mapCallers
  | .addTlb _ _ => [block (mapTail.drop 8)] :: mapCallers
  | .lock f => [nFree] :: freeCallers atAlloc f.result
  | .unmap f => inFree atAlloc f.result []
  | .clearPhys f _ _ => inFree atAlloc f.result [block freeTail, .skip, .skip]
  | .clearVirt f _ => inFree atAlloc f.result [block (freeTail.drop 3), .skip, .skip]
  | .invalidate f _ => inFree atAlloc f.result [block (freeTail.drop 6), .skip, .skip]
  | .checkTable f _ => inFree atAlloc f.result [block (freeTail.drop 7), .skip, .skip]
  | .loadByte f _ | .storeByte f _ _ =>
    inFree atAlloc f.result [block freeTable, .skip, .skip, .skip]
  | .zeroTable f _ => inFree atAlloc f.result [block (freeTable.drop 1), .skip, .skip, .skip]

/-- The same for a thread. -/
def ofAllocator (atAlloc : Bool) : Allocator.Thread → LockProgram.Thread Mutex Site
  | .running sec => ofSection atAlloc sec
  | _ => [[client]]

/-- The mutexes held between two sections. -/
def heldInside (inside : Bool) : Finset Mutex := if inside then {.pageTableLock} else ∅

/-- A thread goes from one place to another on its own; `page_table_lock` is taken only if
`locks`. -/
def Goes (locks : Bool) (th : LockProgram.Thread Mutex Site) (h : Finset Mutex)
    (th' : LockProgram.Thread Mutex Site) (h' : Finset Mutex) : Prop :=
  ∃ as, Performs th as th' ∧ heldAfter as h = some h' ∧
    (.lock .pageTableLock ∈ as → locks = true)

theorem goes_follow {locks : Bool} {th th' : LockProgram.Thread Mutex Site} {h h' : Finset Mutex}
    (ds : List Bool)
    (hf : ((follow th' 80 ds th).bind fun as =>
      if .lock .pageTableLock ∈ as ∧ locks = false then none else heldAfter as h) = some h') :
    Goes locks th h th' h' := by
  obtain ⟨as, has, hh⟩ := Option.bind_eq_some_iff.mp hf
  split at hh
  · exact absurd hh (by simp)
  · rename_i hlock
    refine ⟨as, .of_follow _ _ has, hh, fun hm => ?_⟩
    by_contra hne
    exact hlock ⟨hm, Bool.eq_false_of_not_eq_true hne⟩

theorem Goes.append {locks : Bool} {th th' : LockProgram.Thread Mutex Site} {h h' : Finset Mutex}
    (hg : Goes locks th h th' h') (callers : LockProgram.Thread Mutex Site) :
    Goes locks (th ++ callers) h (th' ++ callers) h' := by
  obtain ⟨as, hp, hh⟩ := hg
  exact ⟨as, hp.append callers, hh⟩

/-- A step inside the loop of `n_free`, whoever called it. -/
theorem goesInFree {atAlloc : Bool} (k k' : List Program) (ds : List Bool)
    (hf : ((follow [k' ++ [.loop freePage, block [.unlock .pageTableLock]]] 80 ds
        [k ++ [.loop freePage, block [.unlock .pageTableLock]]]).bind fun as =>
      if .lock .pageTableLock ∈ as ∧ false = false then none
      else heldAfter as (heldInside true)) = some (heldInside true)) (r : Result) :
    Goes false (inFree atAlloc r k) (heldInside true) (inFree atAlloc r k') (heldInside true) :=
  (goes_follow ds hf).append (freeCallers atAlloc r)

/-- **A section is a path of the lock program.** -/
theorem goes_section (vm : Vm) (sec : Allocator.Section) (b : Bool) :
    ∃ b', Goes sec.locks (ofSection b sec) (heldInside sec.inside)
      (ofAllocator b' (sec.next vm).2) (heldInside (sec.next vm).2.inside) := by
  -- the decisions of the thread are listed where its path has a branch or a loop
  cases sec with
  | setup numPages =>
    rw [Allocator.Section.next]
    split
    · exact ⟨b, goes_follow [false, false, true] rfl⟩
    · exact ⟨b, goes_follow [false, false] rfl⟩
  | reserve numPages =>
    rw [Allocator.Section.next]
    split
    · exact ⟨b, goes_follow [false, false, true] rfl⟩
    · rw [Allocator.MallocCall.loop]
      split
      · exact ⟨b, goes_follow [false, true, true, false, false, false] rfl⟩
      · exact ⟨b, goes_follow [false, true, true, false, false, true] rfl⟩
  | allocPage m =>
    rw [Allocator.Section.next]
    split
    · exact ⟨true, goes_follow [false, true] rfl⟩
    · exact ⟨b, goes_follow [true, true, false] rfl⟩
  | lockTable m pa =>
    rw [Allocator.Section.next]
    dsimp only
    split
    · exact ⟨b, goes_follow [true] rfl⟩
    · exact ⟨b, goes_follow [false] rfl⟩
  | allocTable m pa =>
    rw [Allocator.Section.next]
    split
    · exact ⟨false, goes_follow [false, true, true] rfl⟩
    · exact ⟨b, goes_follow [true, true] rfl⟩
  | newTable m pa newTablePa => exact ⟨b, goes_follow [false] rfl⟩
  | setEntry m pa pde => exact ⟨b, goes_follow [] rfl⟩
  | markPhys m pa => exact ⟨b, goes_follow [] rfl⟩
  | markVirt m pa => exact ⟨b, goes_follow [] rfl⟩
  | addTlb m pa =>
    rw [Allocator.Section.next, Allocator.MallocCall.loop]
    split
    · exact ⟨b, goes_follow [false, false, false, false] rfl⟩
    · exact ⟨b, goes_follow [false, false, false, true] rfl⟩
  | lock f =>
    have hpath : Goes true [[nFree]] (heldInside false)
        [[.loop freePage, block [.unlock .pageTableLock]]] (heldInside true) := goes_follow [] rfl
    exact ⟨b, hpath.append (freeCallers b f.result)⟩
  | unmap f =>
    by_cases hi : f.i = f.numPages
    -- back in `n_malloc`, the thread returns from there as well
    · rw [Allocator.Section.next, if_pos hi]
      obtain ⟨startVa, numPages, i, result⟩ := f
      cases result <;> cases b <;> exact ⟨false, goes_follow [false] rfl⟩
    by_cases hpde : vm.loadPde vm.pageDir (pdx f.va) = 0
    · have hnext : Allocator.Section.next vm (.unmap f) = (vm, .running (.unmap f.advance)) :=
        (if_neg hi).trans (if_pos hpde)
      rw [hnext]
      exact ⟨b, goesInFree [] [] [true, true] rfl f.result⟩
    by_cases hpte : vm.loadPte (vm.loadPde vm.pageDir (pdx f.va)) (ptx f.va) = 0
    · have hnext : Allocator.Section.next vm (.unmap f) = (vm, .running (.unmap f.advance)) :=
        (if_neg hi).trans ((if_neg hpde).trans (if_pos hpte))
      rw [hnext]
      exact ⟨b, goesInFree [] [] [true, false, true] rfl f.result⟩
    · have hnext : Allocator.Section.next vm (.unmap f)
          = (vm.storeEntry (vm.loadPde vm.pageDir (pdx f.va)) (ptx f.va) 0,
            .running (.clearPhys f (vm.loadPde vm.pageDir (pdx f.va))
              (vm.loadPte (vm.loadPde vm.pageDir (pdx f.va)) (ptx f.va)))) :=
        (if_neg hi).trans ((if_neg hpde).trans (if_neg hpte))
      rw [hnext]
      exact ⟨b, goesInFree [] [block freeTail, .skip, .skip] [true, false, false] rfl f.result⟩
  | clearPhys f pde pte =>
    exact ⟨b, goesInFree [block freeTail, .skip, .skip] [block (freeTail.drop 3), .skip, .skip] []
      rfl f.result⟩
  | clearVirt f pde =>
    exact ⟨b, goesInFree [block (freeTail.drop 3), .skip, .skip]
      [block (freeTail.drop 6), .skip, .skip] [] rfl f.result⟩
  | invalidate f pde =>
    exact ⟨b, goesInFree [block (freeTail.drop 6), .skip, .skip]
      [block (freeTail.drop 7), .skip, .skip] [false, false, false] rfl f.result⟩
  | checkTable f pde =>
    rw [Allocator.Section.next]
    split
    · exact ⟨b, goesInFree [block (freeTail.drop 7), .skip, .skip]
        [block freeTable, .skip, .skip, .skip] [true] rfl f.result⟩
    · exact ⟨b, goesInFree [block (freeTail.drop 7), .skip, .skip] [] [false] rfl f.result⟩
  | loadByte f pde =>
    exact ⟨b, goesInFree [block freeTable, .skip, .skip, .skip]
      [block freeTable, .skip, .skip, .skip] [] rfl f.result⟩
  | storeByte f pde byte =>
    exact ⟨b, goesInFree [block freeTable, .skip, .skip, .skip]
      [block (freeTable.drop 1), .skip, .skip, .skip] [] rfl f.result⟩
  | zeroTable f pde =>
    exact ⟨b, goesInFree [block (freeTable.drop 1), .skip, .skip, .skip] [] [] rfl f.result⟩

theorem goes_nMalloc (n : ℕ) :
    Goes false [[client]] ∅ (ofSection false (.setup n)) ∅ := goes_follow (calling 7) rfl

theorem goes_nFree {f : Allocator.FreeCall} (hf : f.result = .void) :
    Goes false [[client]] ∅ (ofSection false (.lock f)) ∅ := by
  have hpath : Goes false [[client]] ∅ ([nFree] :: freeCallers false .void) ∅ :=
    goes_follow (calling 8) rfl
  rw [ofSection, hf]
  exact hpath

section

variable {T : Type} [DecidableEq T] {heap : ByteMem.Bytes}

/-- The threads of the allocator and of the lock program are at the same places, with the same
owner of `page_table_lock`; between two sections no other mutex has one. -/
structure SameLocks (s : Allocator.State T) (l : LockProgram.State T Mutex Site) : Prop where
  threads : ∀ t, ∃ b, l.threads t = ofAllocator b (s.threads t)
  held : ∀ t, l.held t = heldInside (s.threads t).inside
  owner : l.owner .pageTableLock = s.pageTableLock

variable {s : Allocator.State T} {l : LockProgram.State T Mutex Site}

theorem mem_heldInside {m : Mutex} {inside : Bool} :
    m ∈ heldInside inside ↔ m = .pageTableLock ∧ inside = true := by
  cases inside with
  | false => exact ⟨fun h => absurd h (Finset.notMem_empty m), fun h => absurd h.2 (by decide)⟩
  | true => exact ⟨fun h => ⟨Finset.mem_singleton.mp h, rfl⟩, fun h => Finset.mem_singleton.mpr h.1⟩

/-- The thread is between two calls. -/
def Outside : Allocator.Thread → Prop
  | .running _ => False
  | _ => True

theorem ofAllocator_outside {th : Allocator.Thread} (h : Outside th) (b : Bool) :
    ofAllocator b th = [[client]] := by
  cases th with
  | running sec => exact h.elim
  | idle => rfl
  | returned r => rfl

theorem outside_inside {th : Allocator.Thread} (h : Outside th) : th.inside = false := by
  cases th with
  | running sec => exact h.elim
  | idle => rfl
  | returned r => rfl

theorem outside_malloc {s' : Allocator.State T} {t : T} {numBytes : UInt32}
    (hs : s.step heap (.malloc t numBytes) = some s') : Outside (s.threads t) ∧
      ∃ th, ((∃ r, th = .returned r) ∨ ∃ n, th = .running (.setup n)) ∧
        s'.threads = Function.update s.threads t th ∧ s'.pageTableLock = s.pageTableLock := by
  dsimp only [Allocator.State.step] at hs
  have hcalled : (∃ r, (if numBytes = 0 then .returned (.addr none)
        else .running (.setup (roundUpPages numBytes.toNat)) : Allocator.Thread) = .returned r) ∨
      ∃ n, (if numBytes = 0 then .returned (.addr none)
        else .running (.setup (roundUpPages numBytes.toNat)) : Allocator.Thread)
          = .running (.setup n) := by
    split
    · exact .inl ⟨_, rfl⟩
    · exact .inr ⟨_, rfl⟩
  cases hth : s.threads t with
  | running sec =>
    rw [hth] at hs
    exact absurd hs (by simp)
  | idle =>
    rw [hth] at hs
    obtain rfl := Option.some.inj hs
    exact ⟨trivial, _, hcalled, rfl, rfl⟩
  | returned r =>
    rw [hth] at hs
    obtain rfl := Option.some.inj hs
    exact ⟨trivial, _, hcalled, rfl, rfl⟩

theorem outside_free {s' : Allocator.State T} {t : T} {va : UInt32} {size : Int32}
    (hs : s.step heap (.free t va size) = some s') : Outside (s.threads t) ∧
      ∃ f : Allocator.FreeCall, f.result = .void ∧
        s'.threads = Function.update s.threads t (.running (.lock f)) ∧
        s'.pageTableLock = s.pageTableLock := by
  dsimp only [Allocator.State.step] at hs
  cases hth : s.threads t with
  | running sec =>
    rw [hth] at hs
    exact absurd hs (by simp)
  | idle =>
    rw [hth] at hs
    dsimp only at hs
    split at hs
    · obtain rfl := Option.some.inj hs
      exact ⟨trivial, _, rfl, rfl, rfl⟩
    · exact absurd hs (by simp)
  | returned r =>
    rw [hth] at hs
    dsimp only at hs
    split at hs
    · obtain rfl := Option.some.inj hs
      exact ⟨trivial, _, rfl, rfl, rfl⟩
    · exact absurd hs (by simp)

/-- One thread goes on alone, and takes `page_table_lock` only where it is free. -/
theorem SameLocks.update (h : SameLocks s l) (hr : Reachable (library T) l) {t : T}
    {locks : Bool} {th : Allocator.Thread}
    (hg : ∀ b, ∃ b', Goes locks (ofAllocator b (s.threads t)) (heldInside (s.threads t).inside)
      (ofAllocator b' th) (heldInside th.inside))
    (hfree : locks = true → s.pageTableLock = none) {s' : Allocator.State T}
    (hth : s'.threads = Function.update s.threads t th)
    (hlock : s'.pageTableLock =
      if th.inside then some t else if (s.threads t).inside then none else s.pageTableLock) :
    ∃ l', Reachable (library T) l' ∧ SameLocks s' l' := by
  obtain ⟨b, hb⟩ := h.threads t
  obtain ⟨b', as, hp, hh, hlocks⟩ := hg b
  rw [← hb] at hp
  rw [← h.held t] at hh
  have hfreeAll : ∀ m, .lock m ∈ as → ∀ u ≠ t, l.owner m ≠ some u := by
    intro m hm u _ howner
    have hmem : m ∈ l.held u := State.mem_held.mpr howner
    rw [h.held, mem_heldInside] at hmem
    obtain ⟨rfl, -⟩ := hmem
    rw [h.owner, hfree (hlocks hm)] at howner
    exact absurd howner (by simp)
  obtain ⟨l', hr', hth', hheld'⟩ := reachable_performs hr hp hh hfreeAll
  have howns : ∀ u, l'.owner .pageTableLock = some u ↔
      if u = t then th.inside = true else l.owner .pageTableLock = some u := by
    intro u
    rw [← State.mem_held, hheld']
    split
    · rw [mem_heldInside]
      exact and_iff_right rfl
    · exact State.mem_held
  refine ⟨l', hr', fun u => ?_, fun u => ?_, ?_⟩
  · rw [hth', hth]
    by_cases hu : u = t
    · subst hu
      exact ⟨b', by rw [update_self, update_self]⟩
    · rw [update_of_ne hu, update_of_ne hu]
      exact h.threads u
  · rw [hheld', hth]
    by_cases hu : u = t
    · subst hu
      rw [if_pos rfl, update_self]
    · rw [if_neg hu, update_of_ne hu]
      exact h.held u
  · rw [hlock]
    split
    · rename_i hin
      exact (howns t).mpr (by rw [if_pos rfl, hin])
    · rename_i hin
      -- the thread is outside now: the mutex is free if it was inside, else nothing changes
      have hself : l.owner .pageTableLock = some t ↔ (s.threads t).inside = true := by
        rw [← State.mem_held, h.held, mem_heldInside]
        exact and_iff_right rfl
      split
      · rename_i hwas
        refine Option.eq_none_iff_forall_ne_some.mpr fun u hu => ?_
        rw [howns] at hu
        split at hu
        · exact hin hu
        · rename_i hne
          exact hne (Option.some.inj (hu.symm.trans (hself.mpr hwas)))
      · rename_i hwas
        rw [← h.owner]
        ext u
        rw [howns]
        split
        · rename_i hu
          subst hu
          exact iff_of_false hin fun ho => hwas (hself.mp ho)
        · exact Iff.rfl

/-- **The allocator is a run of the lock program**: its sections are paths that nobody
interrupts. -/
theorem allocator_locks (hr : Reachable (Allocator.allocator T heap) s) :
    ∃ l, Reachable (library T) l ∧ SameLocks s l := by
  obtain ⟨ls, hrun⟩ := hr
  refine hrun.invariant (I := fun s => ∃ l, Reachable (library T) l ∧ SameLocks s l) ?_ ?_
  · rintro s rfl
    refine ⟨.start fun _ => client, .start rfl, fun _ => ⟨false, rfl⟩, fun _ => ?_, rfl⟩
    ext m
    rw [State.mem_held, mem_heldInside]
    exact iff_of_false (by simp [LockProgram.State.start]) fun h => absurd h.2 Bool.false_ne_true
  rintro s m s' ⟨l, hl, hsame⟩ hs
  cases m with
  | malloc t numBytes =>
    obtain ⟨hout, th, hcalled, hth, hlock⟩ := outside_malloc hs
    refine hsame.update hl (fun b => ?_) (absurd · Bool.false_ne_true) hth ?_
    · rw [ofAllocator_outside hout b, outside_inside hout]
      obtain ⟨r, rfl⟩ | ⟨n, rfl⟩ := hcalled
      · exact ⟨b, goes_follow [] rfl⟩
      · exact ⟨false, goes_nMalloc n⟩
    · rw [hlock, outside_inside hout]
      obtain ⟨r, rfl⟩ | ⟨n, rfl⟩ := hcalled <;> rfl
  | free t va size =>
    obtain ⟨hout, f, hf, hth, hlock⟩ := outside_free hs
    refine hsame.update hl (fun b => ?_) (absurd · Bool.false_ne_true) hth ?_
    · rw [ofAllocator_outside hout b, outside_inside hout]
      exact ⟨false, goes_nFree hf⟩
    · rw [hlock, outside_inside hout]
      rfl
  | run t =>
    obtain ⟨t', n, th, he, -⟩ | ⟨t', va, size, f, he, -⟩ | ⟨t', sec, vm, he, hsec, hfree, -, rfl⟩ :=
      Allocator.State.step_cases hs
    · exact absurd he (by simp)
    · exact absurd he (by simp)
    obtain rfl : t = t' := Allocator.Move.run.inj he
    have hg : ∀ b, ∃ b', Goes sec.locks (ofAllocator b (s.threads t))
        (heldInside (s.threads t).inside) (ofAllocator b' (sec.next vm).2)
        (heldInside (sec.next vm).2.inside) := by
      rw [hsec]
      exact goes_section vm sec
    refine hsame.update hl hg hfree rfl ?_
    · rw [hsec]
      rfl

/-- Thread `0` has called `n_malloc(1)`. -/
theorem allocator_locks_malloc : ∃ s : Allocator.State ℕ, s.threads 0 = .running (.setup 1) ∧
    ∃ l, Reachable (library ℕ) l ∧ SameLocks s l := by
  have hr : Reachable (Allocator.allocator ℕ fun _ => 0) .start := .start rfl
  exact ⟨_, rfl, allocator_locks (hr.step (l := .malloc 0 1) rfl)⟩

end

/-! ### The sections of `put_data` and `get_data` -/

/-- Which `memcpy` it is. -/
def copySite : Transfer → Site
  | .put _ => .copyIn
  | .get _ => .copyOut

/-- The loop of `put_data` or `get_data`, behind the commands `k` of its body. -/
def inCopy (tr : Transfer) (k : List Program) : LockProgram.Thread Mutex Site :=
  [k ++ [.loop (copyPage (copySite tr)), .skip], [client]]

/-- `translate`, called from there. -/
def inTranslate (tr : Transfer) (k : List Program) : LockProgram.Thread Mutex Site :=
  k :: inCopy tr [block (copyTail (copySite tr))]

/-- Where a thread of the accesses is in the lock program. -/
def ofPc (tr : Transfer) : Pc → LockProgram.Thread Mutex Site
  | .check => inCopy tr [copyPage (copySite tr)]
  | .count _ => inTranslate tr [block [countTranslate, .lock .pageTableLock, walk]]
  | .walk => inTranslate tr [block [.lock .pageTableLock, walk]]
  | .add _ _ => inTranslate tr [block [.call tlbAdd], .skip]
  | .read _ => inCopy tr [block ((copyTail (copySite tr)).drop 1)]
  | .copy _ => inCopy tr [block ((copyTail (copySite tr)).drop 3)]

/-- The same for a thread. -/
def ofAccess : Thread → LockProgram.Thread Mutex Site
  | .accessing a pc => ofPc a.transfer pc
  | _ => [[client]]

theorem goes_access (a : Access) (vm : Vm) (pc : Pc) :
    Goes true (ofPc a.transfer pc) ∅ (ofAccess (a.next vm pc).2) ∅ := by
  obtain ⟨tr, done, va, n⟩ := a
  have hloop : ∀ base, ofAccess (Access.advance ⟨tr, done, va, n⟩ vm base).loop = [[client]] ∨
      ofAccess (Access.advance ⟨tr, done, va, n⟩ vm base).loop = ofPc tr .check := by
    intro base
    rw [Access.loop]
    split
    · exact .inl rfl
    · cases tr <;> exact .inr rfl
  cases pc with
  | check => cases tr <;> exact goes_follow [false, false] rfl
  | count tlbPte =>
    cases tlbPte with
    | some i => cases tr <;> exact goes_follow [true, false] rfl
    | none => cases tr <;> exact goes_follow [false] rfl
  | walk =>
    rw [Access.next]
    dsimp only
    split
    · cases tr <;> exact goes_follow [true, true] rfl
    split
    · cases tr <;> exact goes_follow [false, true, true] rfl
    · cases tr <;> exact goes_follow [false, false] rfl
  | add pte result => cases tr <;> exact goes_follow [false, false, false] rfl
  | read pte => cases tr <;> exact goes_follow [true] rfl
  | copy base =>
    show Goes true _ ∅ (ofAccess (Access.advance ⟨tr, done, va, n⟩ vm base).loop) ∅
    obtain h | h := hloop base
    · rw [h]
      cases tr <;> exact goes_follow [false] rfl
    · rw [h]
      cases tr <;> exact goes_follow [true] rfl

/-- The client calls `put_data` or `get_data`. -/
theorem goes_begin {c : Call} {th : Thread} (h : c.begin = some th) :
    Goes true [[client]] ∅ (ofAccess th) ∅ := by
  have hdone : ∀ r, Goes true [[client]] ∅ (ofAccess (.returned r)) ∅ := fun r => goes_follow [] rfl
  -- at its first page the call is behind one branch and at the head of its loop
  have hloop : ∀ a : Access, Goes true [[client]] ∅ (ofAccess a.loop) ∅ := by
    intro a
    rw [Access.loop]
    split
    · exact hdone _
    obtain ⟨tr, done, va, n⟩ := a
    cases tr with
    | put src => exact goes_follow (calling 9 ++ [false, true]) rfl
    | get dst => exact goes_follow (calling 10 ++ [false, true]) rfl
  cases c with
  | putData va val size =>
    cases val with
    | none =>
      obtain rfl := Option.some.inj h
      exact hdone _
    | some src =>
      rw [Call.begin] at h
      split at h <;> obtain rfl := Option.some.inj h
      · exact hdone _
      · exact hloop _
  | getData va val size =>
    cases val with
    | none =>
      obtain rfl := Option.some.inj h
      exact hdone _
    | some dst =>
      rw [Call.begin] at h
      split at h <;> obtain rfl := Option.some.inj h
      · exact hdone _
      · exact hloop _
  | nMalloc numBytes => exact absurd h (by simp [Call.begin])
  | nFree va size => exact absurd h (by simp [Call.begin])
  | translate va => exact absurd h (by simp [Call.begin])

section

variable {T : Type} [DecidableEq T] {vm : Vm} {s : Shared T}
  {l : LockProgram.State T Mutex Site}

/-- One thread goes on alone while no mutex has an owner. -/
theorem reachable_goes (hr : Reachable (library T) l) (hheld : ∀ t, l.held t = ∅) {t : T}
    {th : LockProgram.Thread Mutex Site} (hg : Goes true (l.threads t) ∅ th ∅) :
    ∃ l', Reachable (library T) l' ∧ l'.threads = update l.threads t th ∧ ∀ u, l'.held u = ∅ := by
  obtain ⟨as, hp, hh, -⟩ := hg
  rw [← hheld t] at hh
  have hfree : ∀ m, .lock m ∈ as → ∀ u ≠ t, l.owner m ≠ some u := by
    intro m _ u _ howner
    have hmem : m ∈ l.held u := State.mem_held.mpr howner
    rw [hheld] at hmem
    exact Finset.notMem_empty m hmem
  obtain ⟨l', hr', hth, hheld'⟩ := reachable_performs hr hp hh hfree
  refine ⟨l', hr', hth, fun u => ?_⟩
  rw [hheld', hheld, hheld, ite_self]

/-- **The accesses are a run of the lock program.** -/
theorem accesses_locks (hr : Reachable (accesses T vm) s) :
    ∃ l, Reachable (library T) l ∧ (∀ t, l.threads t = ofAccess (s.threads t)) ∧
      ∀ t, l.held t = ∅ := by
  obtain ⟨ls, hrun⟩ := hr
  refine hrun.invariant (I := fun s => ∃ l, Reachable (library T) l ∧
    (∀ t, l.threads t = ofAccess (s.threads t)) ∧ ∀ t, l.held t = ∅) ?_ ?_
  · rintro s rfl
    refine ⟨.start fun _ => client, .start rfl, fun _ => rfl, fun t => ?_⟩
    ext m
    rw [State.mem_held]
    exact iff_of_false (by simp [LockProgram.State.start]) (Finset.notMem_empty m)
  rintro s m s' ⟨l, hl, hth, hheld⟩ hs
  -- in both kinds of step one thread follows a path
  have hstep : ∀ t th, Goes true (ofAccess (s.threads t)) ∅ (ofAccess th) ∅ →
      s'.threads = update s.threads t th → ∃ l', Reachable (library T) l' ∧
        (∀ u, l'.threads u = ofAccess (s'.threads u)) ∧ ∀ u, l'.held u = ∅ := by
    intro t th hg hs'
    rw [← hth t] at hg
    obtain ⟨l', hl', hth', hheld'⟩ := reachable_goes hl hheld hg
    refine ⟨l', hl', fun u => ?_, hheld'⟩
    rw [hth', hs']
    by_cases hu : u = t
    · subst hu
      rw [update_self, update_self]
    · rw [update_of_ne hu, update_of_ne hu]
      exact hth u
  change s.step m = some s' at hs
  cases m with
  | call t c =>
    rw [Shared.step] at hs
    split at hs
    · exact absurd hs (by simp)
    rename_i hout
    obtain ⟨th, hbegin, rfl⟩ := Option.map_eq_some_iff.mp hs
    refine hstep t th ?_ rfl
    have hclient : ofAccess (s.threads t) = [[client]] := by
      cases hcur : s.threads t with
      | accessing a pc => exact absurd hcur (hout a pc)
      | idle => rfl
      | returned r => rfl
    rw [hclient]
    exact goes_begin hbegin
  | run t =>
    rw [Shared.step] at hs
    split at hs
    · rename_i a pc hcur
      obtain rfl := Option.some.inj hs
      refine hstep t _ ?_ rfl
      rw [hcur]
      exact goes_access a s.vm pc
    · exact absurd hs (by simp)

/-- Thread `0` has called `get_data` on the first page of a fresh memory. -/
theorem accesses_locks_getData : ∃ s : Shared ℕ,
    s.threads 0 = Access.loop ⟨.get fun _ => 0, 0, 4096, 4⟩ ∧
    ∃ l, Reachable (library ℕ) l ∧ (∀ t, l.threads t = ofAccess (s.threads t)) ∧
      ∀ t, l.held t = ∅ := by
  have hr : Reachable (accesses ℕ (MyVm.setPhysicalMem fun _ => 0)) ⟨_, _⟩ := .start rfl
  exact ⟨_, rfl, accesses_locks (hr.step (l := .call 0 (.getData 4096 (some fun _ => 0) 4)) rfl)⟩

end

end Locking

end MyVm
