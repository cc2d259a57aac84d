import Cs416.Lib.Lts
import Cs416.Threads.Tcb

/-!
# The library, one statement at a time

`worker_mutex_lock`, `worker_mutex_unlock`, `worker_yield`, `worker_exit` and `worker_join` as
statements that a timer tick may separate (`SIGPROF` is not masked in them). A `Pc` is the
statement a thread performs next, with the local variables it has read so far, and `exec`
performs it. `worker_create` is one step here.

Control is kept the way the source keeps it: `swapcontext` and the signal handler store the
computation on the CPU into the context of `running_tcb`, whichever computation that is, and a
dispatch restores what it finds there. The scheduler itself runs as one step with the timer
masked: on entry it takes `running_tcb` off the CPU (`State.schedule`), then it dispatches any
thread it likes, or falls back to the context of the main thread without touching
`running_tcb`. What a result needs of these choices it says as a condition on the steps. The
run queue is kept as `rr_queue` has it; the counters that only choose among ready threads are
left out.

Where a statement dereferences `NULL` the process dies, and there is no step.
-/

open Function Lts

namespace ThreadWorker

/-- The statement a thread performs next. -/
inductive Pc
  /-- The program's own code. -/
  | user
  -- worker_mutex_lock
  | testAndSet (m : MutexPtr)
  | checkBlocked (m : MutexPtr)
  | setBlocked (m : MutexPtr)
  | enqueueSelf (m : MutexPtr)
  | lockSwap (m : MutexPtr)
  | setOwner (m : MutexPtr)
  -- worker_mutex_unlock
  | checkOwner (m : MutexPtr)
  | clearOwner (m : MutexPtr)
  | clearFlag (m : MutexPtr)
  | checkQueue (m : MutexPtr)
  | dequeueWaiter (m : MutexPtr)
  | readyWaiter (m : MutexPtr) (waitThread : Option TcbPtr)
  | addWaiter (m : MutexPtr) (waitThread : TcbPtr)
  -- worker_yield
  | yieldReady
  | yieldSwap (current : TcbPtr)
  -- worker_exit
  | setTerminated (v : Value)
  | setRetval (v : Value)
  | checkWaiting
  | readWaiting
  | readyJoiner (waiting : TcbPtr)
  | addJoiner
  | clearWaiting
  | exitSwap
  | exited
  -- worker_join
  | findTarget (thread : ℕ)
  | checkSelf (thread : ℕ) (target : TcbPtr)
  | checkJoined (target : TcbPtr)
  | markJoined (target : TcbPtr)
  | checkTerminated (target : TcbPtr)
  | markJoinedAgain (target : TcbPtr)
  | blockSelf (target : TcbPtr)
  | setWaiting (target : TcbPtr)
  | joinSwap (target : TcbPtr)
  | readRetval (target : TcbPtr)
  | cleanup (target : TcbPtr)
  deriving DecidableEq, Repr

/-- A computation: the thread whose code it is, and where it stands. -/
structure Code where
  who : TcbPtr
  pc : Pc
  deriving DecidableEq, Repr

/-- The memory all threads share. -/
structure Shared where
  tcb : TcbPtr → Tcb
  allocated : TcbPtr → Bool
  table : Table
  nextThreadId : ℕ
  mutex : MutexPtr → Mutex
  runQueue : List TcbPtr

namespace Shared

def setTcb (sh : Shared) (p : TcbPtr) (t : Tcb) : Shared :=
  { sh with tcb := update sh.tcb p t }

def setState (sh : Shared) (p : TcbPtr) (st : ThreadState) : Shared :=
  sh.setTcb p { sh.tcb p with state := st }

def setMutex (sh : Shared) (m : MutexPtr) (mu : Mutex) : Shared :=
  { sh with mutex := update sh.mutex m mu }

def addToScheduler (sh : Shared) (p : TcbPtr) : Shared :=
  { sh with runQueue := sh.runQueue ++ [p] }

/-- `schedule` takes the thread `r` off the CPU: a preempted thread becomes READY, and a READY
thread goes to the run queue. -/
def preempt (sh : Shared) (r : TcbPtr) : Shared :=
  match (sh.tcb r).state with
  | .running => (sh.setState r .ready).addToScheduler r
  | .ready => sh.addToScheduler r
  | .blocked => sh
  | .terminated => sh

/-- `remove_thread_from_table` and the two `free`s of `cleanup_thread`. -/
def cleanupThread (sh : Shared) (p : TcbPtr) : Shared :=
  { sh with
    table := (removeThreadFromTable sh.table (fun q => (sh.tcb q).id) (sh.tcb p).id).1
    allocated := update sh.allocated p false }

/-- `worker_create` with the block `u` from `malloc`. -/
def create (sh : Shared) (u : TcbPtr) (fresh : Tcb) : Shared :=
  { sh with
    tcb := update sh.tcb u (fresh.create sh.nextThreadId)
    allocated := update sh.allocated u true
    table := (addThreadToTable sh.table u).1
    nextThreadId := sh.nextThreadId + 1
    runQueue := sh.runQueue ++ [u] }

variable (sh : Shared) (p q r : TcbPtr) (m m' : MutexPtr)

@[simp, grind =] theorem setMutex_mutex (mu : Mutex) :
    (sh.setMutex m mu).mutex m' = if m' = m then mu else sh.mutex m' :=
  update_apply _ _ _ _

@[simp, grind =] theorem setMutex_tcb (mu : Mutex) : (sh.setMutex m mu).tcb = sh.tcb := rfl

@[simp, grind =] theorem setMutex_allocated (mu : Mutex) :
    (sh.setMutex m mu).allocated = sh.allocated := rfl

@[simp, grind =] theorem setMutex_table (mu : Mutex) : (sh.setMutex m mu).table = sh.table := rfl

@[simp, grind =] theorem setTcb_tcb (t : Tcb) :
    (sh.setTcb p t).tcb q = if q = p then t else sh.tcb q :=
  update_apply _ _ _ _

@[simp, grind =] theorem setTcb_mutex (t : Tcb) : (sh.setTcb p t).mutex = sh.mutex := rfl

@[simp, grind =] theorem setTcb_allocated (t : Tcb) :
    (sh.setTcb p t).allocated = sh.allocated := rfl

@[simp, grind =] theorem setTcb_table (t : Tcb) : (sh.setTcb p t).table = sh.table := rfl

@[simp, grind =] theorem setState_tcb (st : ThreadState) :
    (sh.setState p st).tcb q = if q = p then { sh.tcb p with state := st } else sh.tcb q :=
  sh.setTcb_tcb p q _

@[simp, grind =] theorem setState_mutex (st : ThreadState) :
    (sh.setState p st).mutex = sh.mutex := rfl

@[simp, grind =] theorem setState_allocated (st : ThreadState) :
    (sh.setState p st).allocated = sh.allocated := rfl

@[simp, grind =] theorem setState_table (st : ThreadState) :
    (sh.setState p st).table = sh.table := rfl

@[simp, grind =] theorem addToScheduler_tcb : (sh.addToScheduler p).tcb = sh.tcb := rfl

@[simp, grind =] theorem addToScheduler_mutex : (sh.addToScheduler p).mutex = sh.mutex := rfl

@[simp, grind =] theorem addToScheduler_allocated :
    (sh.addToScheduler p).allocated = sh.allocated := rfl

@[simp, grind =] theorem addToScheduler_table : (sh.addToScheduler p).table = sh.table := rfl

@[simp, grind =] theorem preempt_mutex : (sh.preempt r).mutex = sh.mutex := by
  unfold preempt
  split <;> rfl

@[simp, grind =] theorem preempt_allocated : (sh.preempt r).allocated = sh.allocated := by
  unfold preempt
  split <;> rfl

@[simp, grind =] theorem preempt_table : (sh.preempt r).table = sh.table := by
  unfold preempt
  split <;> rfl

/-- A thread taken off the CPU is READY unless it is BLOCKED or TERMINATED; the other threads
keep their blocks. -/
@[simp, grind =] theorem preempt_tcb :
    (sh.preempt r).tcb q = if q = r ∧ (sh.tcb r).state = .running
      then { sh.tcb r with state := .ready } else sh.tcb q := by
  unfold preempt
  split <;> rename_i h <;> simp [h]

@[simp, grind =] theorem cleanupThread_tcb : (sh.cleanupThread p).tcb = sh.tcb := rfl

@[simp, grind =] theorem cleanupThread_mutex : (sh.cleanupThread p).mutex = sh.mutex := rfl

@[simp, grind =] theorem cleanupThread_allocated :
    (sh.cleanupThread p).allocated q = if q = p then false else sh.allocated q :=
  update_apply _ _ _ _

@[grind →] theorem mem_cleanupThread_table (h : some q ∈ (sh.cleanupThread p).table) :
    some q ∈ sh.table :=
  mem_removeThreadFromTable h

@[grind →] theorem mem_create_table {fresh : Tcb} (h : some q ∈ (sh.create p fresh).table) :
    q = p ∨ some q ∈ sh.table :=
  mem_addThreadToTable h

@[simp, grind =] theorem create_mutex (fresh : Tcb) : (sh.create p fresh).mutex = sh.mutex := rfl

@[simp, grind =] theorem create_allocated (fresh : Tcb) :
    (sh.create p fresh).allocated q = if q = p then true else sh.allocated q :=
  update_apply _ _ _ _

@[simp, grind =] theorem create_tcb (fresh : Tcb) :
    (sh.create p fresh).tcb q = if q = p then fresh.create sh.nextThreadId else sh.tcb q :=
  update_apply _ _ _ _

end Shared

/-- What follows a statement. -/
inductive Next
  | goto (pc : Pc)
  /-- The call returns. -/
  | ret (result : ℤ)
  /-- `swapcontext` into the scheduler, to be resumed at `pc`. -/
  | swap (context : TcbPtr) (pc : Pc)
  /-- The thread function has returned: `uc_link` enters the scheduler and saves nothing. -/
  | leave
  deriving DecidableEq, Repr

/-- Where the thread stands after the statement. -/
def Next.pc : Next → Pc
  | .goto p => p
  | .ret _ => .user
  | .swap _ p => p
  | .leave => .exited

/-- The statement enters the scheduler. -/
def Next.switches : Next → Bool
  | .swap _ _ => true
  | .leave => true
  | _ => false

/-- One statement of the code of `who`, with `running` for `running_tcb`. -/
def exec (mainTcb who : TcbPtr) (sh : Shared) (running : Option TcbPtr) :
    Pc → Option (Shared × Next)
  | .user => none
  -- while (atomic_flag_test_and_set(&mutex->locked))
  | .testAndSet m =>
    if (sh.mutex m).locked then some (sh, .goto (.checkBlocked m))
    else some (sh.setMutex m { sh.mutex m with locked := true }, .goto (.setOwner m))
  | .checkBlocked m => running.bind fun r =>
    if (sh.tcb r).state ≠ .blocked then some (sh, .goto (.setBlocked m))
    else some (sh, .goto (.lockSwap m))
  | .setBlocked m => running.bind fun r =>
    some (sh.setState r .blocked, .goto (.enqueueSelf m))
  | .enqueueSelf m => running.bind fun r =>
    some (sh.setMutex m { sh.mutex m with waitQueue := (sh.mutex m).waitQueue ++ [r] },
      .goto (.lockSwap m))
  | .lockSwap m => running.bind fun r => some (sh, .swap r (.testAndSet m))
  | .setOwner m => some (sh.setMutex m { sh.mutex m with ownerTcb := running }, .ret 0)
  | .checkOwner m =>
    if (sh.mutex m).ownerTcb ≠ running then some (sh, .ret (-1))
    else some (sh, .goto (.clearOwner m))
  | .clearOwner m =>
    some (sh.setMutex m { sh.mutex m with ownerTcb := none }, .goto (.clearFlag m))
  | .clearFlag m =>
    some (sh.setMutex m { sh.mutex m with locked := false }, .goto (.checkQueue m))
  | .checkQueue m =>
    if (sh.mutex m).waitQueue = [] then some (sh, .ret 0)
    else some (sh, .goto (.dequeueWaiter m))
  | .dequeueWaiter m =>
    match (sh.mutex m).waitQueue with
    | [] => some (sh, .goto (.readyWaiter m none))
    | w :: rest =>
      some (sh.setMutex m { sh.mutex m with waitQueue := rest }, .goto (.readyWaiter m (some w)))
  | .readyWaiter m waitThread => waitThread.bind fun w =>
    some (sh.setState w .ready, .goto (.addWaiter m w))
  | .addWaiter _ w => some (sh.addToScheduler w, .ret 0)
  | .yieldReady =>
    match running with
    | none => some (sh, .ret (-1))
    | some r => some (sh.setState r .ready, .goto (.yieldSwap r))
  | .yieldSwap current => some (sh, .swap current .user)
  | .setTerminated v => running.bind fun r =>
    some (sh.setState r .terminated, .goto (.setRetval v))
  | .setRetval v => running.bind fun r =>
    some (sh.setTcb r { sh.tcb r with retval := v }, .goto .checkWaiting)
  | .checkWaiting => running.bind fun r =>
    if (sh.tcb r).waitingThread ≠ none then some (sh, .goto .readWaiting)
    else some (sh, .goto .exitSwap)
  | .readWaiting => running.bind fun r => (sh.tcb r).waitingThread.bind fun w =>
    some (sh, .goto (.readyJoiner w))
  | .readyJoiner w => some (sh.setState w .ready, .goto .addJoiner)
  | .addJoiner => running.bind fun r => (sh.tcb r).waitingThread.bind fun w =>
    some (sh.addToScheduler w, .goto .clearWaiting)
  | .clearWaiting => running.bind fun r =>
    some (sh.setTcb r { sh.tcb r with waitingThread := none }, .goto .exitSwap)
  | .exitSwap => running.bind fun r => some (sh, .swap r .exited)
  -- a worker's function ends here; the main thread goes on after worker_exit
  | .exited => if who = mainTcb then some (sh, .ret 0) else some (sh, .leave)
  | .findTarget thread =>
    match findTcbById sh.table (fun q => (sh.tcb q).id) thread with
    | none => some (sh, .ret (-1))
    | some target => some (sh, .goto (.checkSelf thread target))
  | .checkSelf thread target => running.bind fun r =>
    if (sh.tcb r).id = thread then some (sh, .ret (-1))
    else some (sh, .goto (.checkJoined target))
  | .checkJoined target =>
    if (sh.tcb target).joined then some (sh, .ret (-1))
    else some (sh, .goto (.markJoined target))
  | .markJoined target =>
    some (sh.setTcb target { sh.tcb target with joined := true }, .goto (.checkTerminated target))
  | .checkTerminated target =>
    if (sh.tcb target).state = .terminated then some (sh, .goto (.readRetval target))
    else some (sh, .goto (.markJoinedAgain target))
  | .markJoinedAgain target =>
    some (sh.setTcb target { sh.tcb target with joined := true }, .goto (.blockSelf target))
  | .blockSelf target => running.bind fun r =>
    some (sh.setState r .blocked, .goto (.setWaiting target))
  | .setWaiting target => running.bind fun r =>
    some (sh.setTcb target { sh.tcb target with waitingThread := some r },
      .goto (.joinSwap target))
  | .joinSwap target => running.bind fun r => some (sh, .swap r (.readRetval target))
  -- *value_ptr is the caller's memory
  | .readRetval target => some (sh, .goto (.cleanup target))
  | .cleanup target => some (sh.cleanupThread target, .ret 0)

/-- The calls a program may make, `worker_create` apart. -/
inductive Call
  | lock (m : MutexPtr)
  | unlock (m : MutexPtr)
  | yield
  | exit (v : Value)
  | join (thread : ℕ)
  deriving DecidableEq, Repr

/-- The first statement of a call. -/
def Call.entry : Call → Pc
  | .lock m => .testAndSet m
  | .unlock m => .checkOwner m
  | .yield => .yieldReady
  | .exit v => .setTerminated v
  | .join thread => .findTarget thread

/-- The state of the process. `inside t m` records that `t` is past a `worker_mutex_lock` of
`m` that returned `0` and not yet past the flag clear of its `worker_mutex_unlock`; no
statement reads it. -/
structure State where
  shared : Shared
  context : TcbPtr → Code
  mainTcb : TcbPtr
  running : Option TcbPtr
  /-- The computation on the CPU; `none` while the scheduler chooses. -/
  cpu : Option Code
  inside : TcbPtr → MutexPtr → Bool

/-- `inside` after the statement `c.pc` of `c.who`. -/
def observe (c : Code) (inside : TcbPtr → MutexPtr → Bool) (t : TcbPtr) (m : MutexPtr) : Bool :=
  if t = c.who ∧ c.pc = .setOwner m then true
  else if t = c.who ∧ c.pc = .clearFlag m then false
  else inside t m

namespace State

/-- `schedule`, up to the choice of the next thread. -/
def schedule (s : State) : State :=
  match s.running with
  | none => { s with cpu := none }
  | some r =>
    { s with
      shared := s.shared.preempt r
      running := if (s.shared.tcb r).state = .terminated then none else some r
      cpu := none }

/-- Where the code of `t` stands: on the CPU, or in the context of `t`. -/
def pcOf (s : State) (t : TcbPtr) : Pc :=
  match s.cpu with
  | some c => if c.who = t then c.pc else (s.context t).pc
  | none => (s.context t).pc

/-- The thread whose code is on the CPU. -/
def onCpu (s : State) : Option TcbPtr := s.cpu.map Code.who

/-- Control goes on as `next` says, in the code of `who`. -/
def proceed (s : State) (who : TcbPtr) : Next → State
  | .goto p => { s with cpu := some ⟨who, p⟩ }
  | .ret _ => { s with cpu := some ⟨who, .user⟩ }
  | .swap dst p => schedule { s with context := update s.context dst ⟨who, p⟩ }
  | .leave => s.schedule

def create (s : State) (u : TcbPtr) (fresh : Tcb) : State :=
  { s with
    shared := s.shared.create u fresh
    context := update s.context u ⟨u, .user⟩
    inside := update s.inside u fun _ => false }

end State

inductive Label
  /-- The thread on the CPU performs its next statement. -/
  | stmt
  /-- The program calls the library. -/
  | call (k : Call)
  /-- `worker_create`: `malloc` returns the block `u`, which holds `fresh`. -/
  | create (u : TcbPtr) (fresh : Tcb)
  /-- `SIGPROF` is delivered. -/
  | tick
  /-- The scheduler dispatches the thread `t`. -/
  | dispatch (t : TcbPtr)
  /-- The scheduler falls back to the main thread's context. -/
  | toMain
  deriving DecidableEq, Repr

/-- One step. `malloc` returns a block that is not in use, and not the block of a thread that
has not ended. -/
def step (s : State) : Label → Option State
  | .stmt =>
    match s.cpu with
    | none => none
    | some c =>
      match exec s.mainTcb c.who s.shared s.running c.pc with
      | none => none
      | some (sh, next) =>
        some (State.proceed { s with shared := sh, inside := observe c s.inside } c.who next)
  | .call k =>
    match s.cpu with
    | some ⟨t, .user⟩ => some { s with cpu := some ⟨t, k.entry⟩ }
    | _ => none
  | .create u fresh =>
    match s.cpu with
    | some ⟨_, .user⟩ =>
      if s.shared.allocated u = false ∧ s.pcOf u = .exited then some (s.create u fresh) else none
    | _ => none
  | .tick =>
    match s.cpu with
    | none => none
    | some c =>
      match s.running with
      | none => some s
      | some r => some (State.schedule { s with context := update s.context r c })
  | .dispatch t =>
    match s.cpu with
    | some _ => none
    | none =>
      some { s with
        shared := { s.shared.setState t .running with runQueue := s.shared.runQueue.erase t }
        running := some t
        cpu := some (s.context t) }
  | .toMain =>
    match s.cpu with
    | some _ => none
    | none => some { s with cpu := some (s.context s.mainTcb) }

/-- The state after `init_main_thread`. A mutex is as `worker_mutex_init` left it, or the main
thread has locked it before, while `running_tcb` was `NULL`. Addresses at which there is no
thread count as those of threads that have ended. -/
structure IsInit (s : State) : Prop where
  cpu : s.cpu = some ⟨s.mainTcb, .user⟩
  running : s.running = some s.mainTcb
  mainState : (s.shared.tcb s.mainTcb).state = .running
  mainContext : s.context s.mainTcb = ⟨s.mainTcb, .user⟩
  mainAllocated : s.shared.allocated s.mainTcb = true
  others : ∀ t, t ≠ s.mainTcb → s.context t = ⟨t, .exited⟩ ∧
    s.shared.allocated t = false ∧ (s.shared.tcb t).state = .terminated
  table : s.shared.table = initThreadTable
  runQueue : s.shared.runQueue = []
  mutexes : ∀ m, s.shared.mutex m = .init ∧ (∀ t, s.inside t m = false) ∨
    s.shared.mutex m = { Mutex.init with locked := true } ∧
      ∀ t, s.inside t m = true → t = s.mainTcb

/-- The library under preemption between any two statements. -/
def machine : System State Label where
  init := IsInit
  step s l s' := step s l = some s'

/-- The main thread, in block `0`, right after `init_main_thread`. -/
def State.first : State where
  shared :=
    { tcb := fun t => if t = 0 then Tcb.zero.main else { Tcb.zero with state := .terminated }
      allocated := fun t => t == 0
      table := initThreadTable
      nextThreadId := 1
      mutex := fun _ => .init
      runQueue := [] }
  context := fun t => if t = 0 then ⟨0, .user⟩ else ⟨t, .exited⟩
  mainTcb := 0
  running := some 0
  cpu := some ⟨0, .user⟩
  inside := fun _ _ => false

theorem State.first_isInit : IsInit State.first where
  cpu := rfl
  running := rfl
  mainState := rfl
  mainContext := rfl
  mainAllocated := rfl
  others t ht := by
    have ht : t ≠ 0 := ht
    refine ⟨if_neg ht, beq_false_of_ne ht, ?_⟩
    change (if t = 0 then Tcb.zero.main else { Tcb.zero with state := .terminated }).state = _
    rw [if_neg ht]
  table := rfl
  runQueue := rfl
  mutexes _ := .inl ⟨rfl, fun _ => rfl⟩

/-- The scheduler dispatches the head of the run queue, as `sched_rr` does while there is
one. -/
def RoundRobin (s : State) : Label → Prop
  | .dispatch t => s.shared.runQueue.head? = some t
  | .toMain => False
  | _ => True

instance (s : State) : (l : Label) → Decidable (RoundRobin s l)
  | .dispatch t => inferInstanceAs (Decidable (s.shared.runQueue.head? = some t))
  | .toMain => .isFalse id
  | .stmt | .call _ | .create _ _ | .tick => .isTrue trivial

end ThreadWorker
