import Mathlib.Tactic

/-!
# Thread control blocks, mutexes and the thread table

The data of `thread-worker.h`. A `tcb_t *` is a number and a pointer that may be `NULL` is an
`Option`. The saved context of a thread is kept beside its control block, by the models that
save and restore one: what a context is depends on how finely the code of the library is cut
into steps. `worker_t` is the natural number `next_thread_id` counts; the source's counter is
an `int`, and its overflow is undefined.
-/

namespace ThreadWorker

/-- `tcb_t *`, not `NULL`. -/
abbrev TcbPtr := ℕ

/-- `worker_mutex_t *`, not `NULL`. -/
abbrev MutexPtr := ℕ

/-- `void *`, the values threads pass to `worker_exit`; `0` is `NULL`. -/
abbrev Value := ℕ

def maxThreads : ℕ := 128

/-- `enum thread_state`. -/
inductive ThreadState
  | ready
  | running
  | blocked
  | terminated
  deriving DecidableEq, Repr

/-- `struct TCB`, without the context, the stack (allocated and freed with the block) and the
time stamps that only `print_app_stats` shows. -/
structure Tcb where
  id : ℕ
  retval : Value
  state : ThreadState
  hasStarted : Bool
  elapsedQuanta : ℤ
  priority : ℕ
  timeSlice : ℤ
  timeUsed : ℤ
  vruntime : ℤ
  lastStart : ℤ
  cfsTimeslice : ℤ
  waitingThread : Option TcbPtr
  joined : Bool
  deriving DecidableEq, Repr

/-- `worker_mutex_t`; its field `owner` is never used. -/
structure Mutex where
  locked : Bool
  ownerTcb : Option TcbPtr
  waitQueue : List TcbPtr
  deriving DecidableEq, Repr

/-- What `worker_mutex_init` stores. -/
def Mutex.init : Mutex where
  locked := false
  ownerTcb := none
  waitQueue := []

/-- The fields `worker_create` stores into the block `malloc` returned. `waiting_thread` is not
among them: it keeps what the memory held. -/
def Tcb.create (fresh : Tcb) (id : ℕ) : Tcb :=
  { fresh with
    id := id
    hasStarted := false
    state := .ready
    retval := 0
    joined := false
    elapsedQuanta := 0
    priority := 0
    timeSlice := 1
    timeUsed := 0
    vruntime := 0 }

/-- The control block `init_main_thread` fills in. -/
def Tcb.main (fresh : Tcb) : Tcb :=
  { fresh with
    id := 0
    state := .running
    retval := 0
    hasStarted := true }

/-- A block of zeros. -/
def Tcb.zero : Tcb where
  id := 0
  retval := 0
  state := .ready
  hasStarted := false
  elapsedQuanta := 0
  priority := 0
  timeSlice := 0
  timeUsed := 0
  vruntime := 0
  lastStart := 0
  cfsTimeslice := 0
  waitingThread := none
  joined := false

/-- `thread_table`. -/
abbrev Table := List (Option TcbPtr)

def initThreadTable : Table := List.replicate maxThreads none

/-- `find_tcb_by_id`, with the `id` fields of the blocks as a function. -/
def findTcbById (table : Table) (idOf : TcbPtr → ℕ) (id : ℕ) : Option TcbPtr :=
  match table with
  | [] => none
  | none :: rest => findTcbById rest idOf id
  | some p :: rest => if idOf p = id then some p else findTcbById rest idOf id

/-- `add_thread_to_table`: the first free slot, and whether there was one. -/
def addThreadToTable (table : Table) (p : TcbPtr) : Table × Bool :=
  match table with
  | [] => ([], false)
  | none :: rest => (some p :: rest, true)
  | some q :: rest =>
    let (rest', ok) := addThreadToTable rest p
    (some q :: rest', ok)

/-- `remove_thread_from_table`: clears the first slot with this `id`, and says whether there
was one. -/
def removeThreadFromTable (table : Table) (idOf : TcbPtr → ℕ) (id : ℕ) : Table × Bool :=
  match table with
  | [] => ([], false)
  | none :: rest =>
    let (rest', ok) := removeThreadFromTable rest idOf id
    (none :: rest', ok)
  | some p :: rest =>
    if idOf p = id then (none :: rest, true)
    else
      let (rest', ok) := removeThreadFromTable rest idOf id
      (some p :: rest', ok)

variable {table : Table} {idOf : TcbPtr → ℕ} {id : ℕ} {p q : TcbPtr}

theorem mem_of_findTcbById (h : findTcbById table idOf id = some p) : some p ∈ table := by
  induction table with
  | nil => exact absurd h (by simp [findTcbById])
  | cons slot rest ih =>
    cases slot with
    | none => exact List.mem_cons_of_mem _ (ih h)
    | some r =>
      rw [findTcbById] at h
      split at h
      · rw [Option.some.inj h]
        exact List.mem_cons_self
      · exact List.mem_cons_of_mem _ (ih h)

theorem id_of_findTcbById (h : findTcbById table idOf id = some p) : idOf p = id := by
  induction table with
  | nil => exact absurd h (by simp [findTcbById])
  | cons slot rest ih =>
    cases slot with
    | none => exact ih h
    | some r =>
      rw [findTcbById] at h
      split at h
      · rwa [← Option.some.inj h]
      · exact ih h

theorem mem_addThreadToTable (h : some q ∈ (addThreadToTable table p).1) :
    q = p ∨ some q ∈ table := by
  induction table with
  | nil => exact absurd h (by simp [addThreadToTable])
  | cons slot rest ih =>
    cases slot with
    | none =>
      rw [addThreadToTable, List.mem_cons] at h
      exact h.imp (fun h => Option.some.inj h) (List.mem_cons_of_mem _)
    | some r =>
      rw [addThreadToTable, List.mem_cons] at h
      rcases h with h | h
      · rw [h]
        exact .inr List.mem_cons_self
      · exact (ih h).imp id (List.mem_cons_of_mem _)

theorem mem_removeThreadFromTable (h : some q ∈ (removeThreadFromTable table idOf id).1) :
    some q ∈ table := by
  induction table with
  | nil => exact absurd h (by simp [removeThreadFromTable])
  | cons slot rest ih =>
    cases slot with
    | none =>
      rw [removeThreadFromTable, List.mem_cons] at h
      exact List.mem_cons_of_mem _ (ih (h.resolve_left (by simp)))
    | some r =>
      rw [removeThreadFromTable] at h
      split at h
      · exact List.mem_cons_of_mem _ ((List.mem_cons.mp h).resolve_left (by simp))
      · rcases List.mem_cons.mp h with h | h
        · rw [h]
          exact List.mem_cons_self
        · exact List.mem_cons_of_mem _ (ih h)

/-- A removal removes the thread, when it is there once and no other has its `id`. -/
theorem not_mem_removeThreadFromTable (hcount : table.count (some p) ≤ 1)
    (hid : ∀ q, some q ∈ table → idOf q = idOf p → q = p) :
    some p ∉ (removeThreadFromTable table idOf (idOf p)).1 := by
  induction table with
  | nil => simp [removeThreadFromTable]
  | cons slot rest ih =>
    cases slot with
    | none =>
      have hrest := ih (by simpa using hcount) fun q hq => hid q (List.mem_cons_of_mem _ hq)
      simpa [removeThreadFromTable] using hrest
    | some r =>
      rw [removeThreadFromTable]
      split
      · next hr =>
        obtain rfl := hid r List.mem_cons_self hr
        rw [List.count_cons_self] at hcount
        simpa using List.count_eq_zero.mp (by omega : rest.count (some r) = 0)
      · next hr =>
        have hne : r ≠ p := fun h => hr (by rw [h])
        have hrest := ih (by simpa [hne] using hcount) fun q hq => hid q (List.mem_cons_of_mem _ hq)
        simpa [hne, Ne.symm hne] using hrest

theorem count_removeThreadFromTable (slot : Option TcbPtr) (h : slot ≠ none) :
    (removeThreadFromTable table idOf id).1.count slot ≤ table.count slot := by
  induction table with
  | nil => exact le_rfl
  | cons head rest ih =>
    cases head with
    | none => simpa [removeThreadFromTable, List.count_cons, Ne.symm h] using ih
    | some r =>
      rw [removeThreadFromTable]
      split
      · simp [List.count_cons, Ne.symm h]
      · simpa [List.count_cons] using ih

theorem count_addThreadToTable (h : some p ∉ table) (q : TcbPtr) (hq : table.count (some q) ≤ 1) :
    (addThreadToTable table p).1.count (some q) ≤ 1 := by
  have hle : (addThreadToTable table p).1.count (some q)
      ≤ table.count (some q) + if q = p then 1 else 0 := by
    clear h hq
    induction table with
    | nil => simp [addThreadToTable]
    | cons head rest ih =>
      cases head with
      | none =>
        have hhead : (some p == some q) = true ↔ q = p := by
          rw [beq_iff_eq, Option.some_inj, eq_comm]
        simp only [addThreadToTable, List.count_cons, hhead]
        omega
      | some r =>
        rw [addThreadToTable]
        simp only [List.count_cons]
        omega
  split at hle
  · next hqp =>
    rw [hqp, List.count_eq_zero.mpr h] at hle
    rw [hqp]
    exact hle
  · exact hle.trans hq

end ThreadWorker
