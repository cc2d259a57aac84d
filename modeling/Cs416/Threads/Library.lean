import Cs416.Lib.Lts
import Cs416.Threads.Heap

/-!
# The library, one call at a time

The calls of `thread-worker.c` and the scheduler under each of its policies, with preemption
between calls. A call runs up to its return or to its `swapcontext` (`act`); `schedule` then
runs as a whole, with the timer masked, and puts another computation on the CPU. A call that
has left the CPU inside the library goes on with `resume`.

As in the source, `swapcontext` and the signal handler store the computation on the CPU into
the context of `running_tcb`, whichever computation that is, and the fallback of the policies
restores the context of the main thread without touching `running_tcb`. There is no step where
a `NULL` pointer is dereferenced, an array is left, or a loop does not end. A freed block keeps
its contents until it is allocated again.
-/

open Function Lts

namespace ThreadWorker

/-- The policies that the `Makefile` selects. -/
inductive Policy
  | psjf
  | mlfq
  | cfs
  | rr
  deriving DecidableEq, Repr

namespace Library

abbrev targetLatency : ℤ := 20
abbrev minSchedGrn : ℤ := 1
abbrev quantum : ℤ := 10
abbrev maxMlfqLevels : ℕ := 4
abbrev sPeriod : ℕ := 100

/-- Where a computation goes on. -/
inductive Point
  /-- In the program's own code. -/
  | user
  /-- Behind the `swapcontext` of `worker_mutex_lock`. -/
  | locking (m : MutexPtr)
  /-- Behind the `swapcontext` of `worker_join(thread)`. -/
  | joining (thread : ℕ) (target : TcbPtr)
  /-- Behind the `swapcontext` of `worker_exit`. -/
  | exited
  deriving DecidableEq, Repr

/-- A computation: the thread whose code it is, and where it goes on. -/
structure Code where
  who : TcbPtr
  point : Point
  deriving DecidableEq, Repr

/-- The state of the process. Readings of `CLOCK_MONOTONIC` are in nanoseconds; `clock` is the
last one. `timer` is the slice that was armed last. -/
structure State where
  tcb : TcbPtr → Tcb
  allocated : TcbPtr → Bool
  table : Table
  threadCount : ℤ
  nextThreadId : ℕ
  rrQueue : List TcbPtr
  psjfHeap : MinHeap
  mlfqLevels : ℕ → List TcbPtr
  cfsHeap : MinHeap
  globalTicks : ℕ
  timer : ℤ
  clock : ℤ
  mutex : MutexPtr → Mutex
  mainTcb : TcbPtr
  runningTcb : Option TcbPtr
  context : TcbPtr → Code
  cpu : Code

namespace State

def setTcb (s : State) (p : TcbPtr) (t : Tcb) : State := { s with tcb := update s.tcb p t }

def setState (s : State) (p : TcbPtr) (st : ThreadState) : State :=
  s.setTcb p { s.tcb p with state := st }

def setMutex (s : State) (m : MutexPtr) (mu : Mutex) : State :=
  { s with mutex := update s.mutex m mu }

/-- Stores the computation on the CPU into the context of `r`, to go on at `point`. -/
def save (s : State) (r : TcbPtr) (point : Point) : State :=
  { s with context := update s.context r ⟨s.cpu.who, point⟩ }

def idOf (s : State) (p : TcbPtr) : ℕ := (s.tcb p).id

/-- `has_blocked_threads` -/
def hasBlockedThreads (s : State) : Bool :=
  s.table.any fun slot => slot.any fun p => (s.tcb p).state == .blocked

/-- `cleanup_thread` -/
def cleanupThread (s : State) (p : TcbPtr) : State :=
  let r := removeThreadFromTable s.table s.idOf (s.tcb p).id
  { s with
    table := r.1
    threadCount := if r.2 then s.threadCount - 1 else s.threadCount
    allocated := update s.allocated p false }

end State

/-! ### The run queues -/

/-- A `long` or an `unsigned` difference that is returned as an `int`. -/
def toInt (x : ℤ) : ℤ := x.bmod (2 ^ 32)

/-- The two comparators, for the field they compare. -/
def keyCmp (key : Tcb → ℤ) (tcb : TcbPtr → Tcb) (a b : TcbPtr) : ℤ :=
  if key (tcb a) ≠ key (tcb b) then toInt (key (tcb a) - key (tcb b))
  else toInt ((tcb a).id - (tcb b).id)

/-- `psjf_cmp` -/
def psjfCmp : (TcbPtr → Tcb) → TcbPtr → TcbPtr → ℤ := keyCmp Tcb.elapsedQuanta

/-- `cfs_cmp` -/
def cfsCmp : (TcbPtr → Tcb) → TcbPtr → TcbPtr → ℤ := keyCmp Tcb.vruntime

/-- `add_to_scheduler` -/
def addToScheduler (pol : Policy) (s : State) (thread : TcbPtr) : Option State :=
  match pol with
  | .psjf => (s.psjfHeap.push (psjfCmp s.tcb) thread).map fun heap => { s with psjfHeap := heap }
  | .mlfq =>
    let level := (s.tcb thread).priority
    if level < maxMlfqLevels then
      some { s with mlfqLevels := update s.mlfqLevels level (s.mlfqLevels level ++ [thread]) }
    else none
  | .cfs => (s.cfsHeap.push (cfsCmp s.tcb) thread).map fun heap => { s with cfsHeap := heap }
  | .rr => some { s with rrQueue := s.rrQueue ++ [thread] }

/-- The inner loop of `promote_all_threads`, with a bound on the iterations: a thread goes back
to the level it was taken from. -/
def promoteLoop : ℕ → List TcbPtr → Option (List TcbPtr)
  | _, [] => some []
  | 0, _ :: _ => none
  | fuel + 1, t :: rest => promoteLoop fuel (rest ++ [t])

/-- The loop does not end on a level with a thread in it. -/
theorem promoteLoop_of_ne_nil {level : List TcbPtr} (h : level ≠ []) (fuel : ℕ) :
    promoteLoop fuel level = none := by
  induction fuel generalizing level with
  | zero =>
    obtain ⟨t, rest, rfl⟩ := List.exists_cons_of_ne_nil h
    rfl
  | succ fuel ih =>
    obtain ⟨t, rest, rfl⟩ := List.exists_cons_of_ne_nil h
    exact ih (by simp)

/-- `promote_all_threads`, when its loops end: then they find nothing to move. -/
def promoteAllThreads (s : State) : Option State :=
  if s.mlfqLevels 1 = [] ∧ s.mlfqLevels 2 = [] ∧ s.mlfqLevels 3 = [] then some s else none

/-! ### The scheduler -/

/-- `time_diff_microseconds`: the seconds and the nanoseconds are subtracted apart. -/
def timeDiffMicroseconds (start stop : ℤ) : ℤ :=
  (stop / 10 ^ 9 - start / 10 ^ 9) * 1000000 + (stop % 10 ^ 9 - start % 10 ^ 9).tdiv 1000

/-- `update_vruntime` -/
def updateVruntime (s : State) (p : TcbPtr) (now : ℤ) : State :=
  let t := s.tcb p
  s.setTcb p { t with vruntime := t.vruntime + timeDiffMicroseconds t.lastStart now }

/-- The case of a preempted thread in `schedule`. -/
def preempt (pol : Policy) (s : State) (r : TcbPtr) (now : ℤ) : Option State :=
  let t := s.tcb r
  match pol with
  | .psjf => addToScheduler pol (s.setTcb r { t with elapsedQuanta := t.elapsedQuanta + 1 }) r
  | .mlfq =>
    let s := s.setTcb r { t with timeUsed := t.timeUsed + 1 }
    let s := { s with globalTicks := s.globalTicks + 1 }
    if s.globalTicks % sPeriod = 0 then promoteAllThreads s else some s
  | .cfs => addToScheduler pol (updateVruntime s r now) r
  | .rr => addToScheduler pol (s.setTcb r { t with elapsedQuanta := t.elapsedQuanta + 1 }) r

/-- What `schedule` does with `running_tcb`. -/
def leave (pol : Policy) (s : State) (now : ℤ) : Option State :=
  match s.runningTcb with
  | none => some s
  | some r =>
    match (s.tcb r).state with
    | .running => preempt pol (s.setState r .ready) r now
    | .ready => addToScheduler pol (s.setTcb r { s.tcb r with timeUsed := 0 }) r
    | .blocked => some s
    | .terminated => some { s with runningTcb := none }

/-- Puts `next` on the CPU. -/
def dispatch (s : State) (next : TcbPtr) : State × Option TcbPtr :=
  ({ s.setTcb next { s.tcb next with state := .running, hasStarted := true } with
      runningTcb := some next
      cpu := s.context next }, some next)

/-- `setcontext(&main_tcb->context)`, when no thread is ready. -/
def toMain (s : State) : State × Option TcbPtr := ({ s with cpu := s.context s.mainTcb }, none)

/-- `sched_psjf`. `heap_pop` does not return `NULL`: from an empty heap it reads outside the
array. -/
def schedPsjf (s : State) : Option (State × Option TcbPtr) :=
  (s.psjfHeap.pop (psjfCmp s.tcb)).map fun x => dispatch { s with psjfHeap := x.2 } x.1

/-- The head of the first level that has one, from level `i` on. -/
def takeLevel (levels : ℕ → List TcbPtr) : (n i : ℕ) → Option (TcbPtr × (ℕ → List TcbPtr))
  | 0, _ => none
  | n + 1, i =>
    match levels i with
    | [] => takeLevel levels n (i + 1)
    | t :: rest => some (t, update levels i rest)

/-- The loop of `sched_mlfq`. With no thread ready it goes on for as long as one is blocked,
which is for ever. -/
def mlfqLoop (s : State) : Option (State × Option TcbPtr) :=
  match takeLevel s.mlfqLevels maxMlfqLevels 0 with
  | some (next, levels) => some (dispatch { s with mlfqLevels := levels } next)
  | none =>
    if s.threadCount ≤ 1 then some (toMain s)
    else if s.hasBlockedThreads then none
    else some (toMain s)

/-- `sched_mlfq` -/
def schedMlfq (s : State) : Option (State × Option TcbPtr) :=
  match s.runningTcb with
  | none => mlfqLoop s
  | some r =>
    let t := s.tcb r
    match t.state with
    | .running =>
      if t.timeUsed ≥ t.timeSlice then
        let priority := if t.priority < maxMlfqLevels - 1 then t.priority + 1 else t.priority
        (addToScheduler .mlfq (s.setTcb r
          { t with
            priority := priority
            timeSlice := 2 ^ priority
            timeUsed := 0
            state := .ready }) r).bind mlfqLoop
      else some ({ s with cpu := s.context r }, some r)
    | .ready => (addToScheduler .mlfq s r).bind mlfqLoop
    | .terminated => mlfqLoop { s with runningTcb := none }
    | .blocked => mlfqLoop s

/-- The slice `calculate_timeslice_cfs` computes for `size` threads in the heap. -/
def cfsSlice (size : ℕ) : ℤ := max (targetLatency * 1000 / (size + 1)) (minSchedGrn * 1000)

/-- `sched_cfs`, which reads the clock at `now` when it dispatches. -/
def schedCfs (s : State) (now : ℤ) : Option (State × Option TcbPtr) :=
  match s.runningTcb with
  | none => none
  | some r =>
    let slice := cfsSlice s.cfsHeap.size
    let s := s.setTcb r { s.tcb r with cfsTimeslice := slice }
    (s.cfsHeap.pop (cfsCmp s.tcb)).map fun x =>
      let s := { s with cfsHeap := x.2, timer := slice }
      dispatch (s.setTcb x.1 { s.tcb x.1 with lastStart := now }) x.1

/-- `sched_rr`. With no thread ready it goes on for as long as none is blocked, which is for
ever. -/
def schedRr (s : State) : Option (State × Option TcbPtr) :=
  match s.rrQueue with
  | next :: rest => some (dispatch { s with rrQueue := rest } next)
  | [] =>
    if s.threadCount ≤ 1 then some (toMain s)
    else if s.hasBlockedThreads then some (toMain s)
    else none

/-- The scheduling function of the policy. -/
def sched (pol : Policy) (s : State) (now : ℤ) : Option (State × Option TcbPtr) :=
  match pol with
  | .psjf => schedPsjf s
  | .mlfq => schedMlfq s
  | .cfs => schedCfs s now
  | .rr => schedRr s

/-- `schedule`, which reads the clock at `entry` and at `dispatch`: the thread it dispatches, or
`none` for the fallback to the main thread. -/
def schedule (pol : Policy) (s : State) (entry dispatch : ℤ) : Option (State × Option TcbPtr) :=
  (leave pol s entry).bind fun s => sched pol s dispatch

/-! ### The calls -/

/-- What a step performs. -/
inductive Op
  /-- `SIGPROF` is delivered. -/
  | tick
  | yield
  | exit (v : Value)
  | join (thread : ℕ)
  | lock (m : MutexPtr)
  | unlock (m : MutexPtr)
  | mutexInit (m : MutexPtr)
  | mutexDestroy (m : MutexPtr)
  /-- `worker_create`: `malloc` returns the block `u`, which holds `fresh`. -/
  | create (u : TcbPtr) (fresh : Tcb)
  /-- `worker_create`: `malloc` fails, for the stack or already for the control block. -/
  | createFails (stack : Bool)
  /-- A computation goes on in the call in which it left the CPU. -/
  | resume
  deriving DecidableEq, Repr

/-- What the program gets back. -/
inductive Reply
  | nothing
  | code (r : ℤ)
  | created (thread : ℕ)
  /-- `worker_join` returns `0`, with what it stored through `value_ptr`. -/
  | joined (thread : ℕ) (v : Value)
  deriving DecidableEq, Repr

/-- Why a thread enters the scheduler. -/
inductive Leave
  | preempted
  | yielded
  | blocked
  | exited (v : Value)
  deriving DecidableEq, Repr

/-- How a step goes on. -/
inductive After
  | ret (reply : Reply)
  | enter (why : Leave)
  deriving DecidableEq, Repr

/-- The loop of `worker_mutex_lock`, from its test on. -/
def lockLoop (s : State) (m : MutexPtr) : Option (State × After) :=
  let mu := s.mutex m
  if mu.locked then
    match s.runningTcb with
    | none => none
    | some r =>
      let s := if (s.tcb r).state ≠ .blocked then
          (s.setState r .blocked).setMutex m { mu with waitQueue := mu.waitQueue ++ [r] }
        else s
      some (s.save r (.locking m), .enter .blocked)
  else
    some (s.setMutex m { mu with locked := true, ownerTcb := s.runningTcb }, .ret (.code 0))

/-- `worker_mutex_unlock` -/
def unlock (pol : Policy) (s : State) (m : MutexPtr) : Option (State × After) :=
  let mu := s.mutex m
  if mu.ownerTcb ≠ s.runningTcb then some (s, .ret (.code (-1)))
  else
    match mu.waitQueue with
    | [] => some (s.setMutex m { mu with ownerTcb := none, locked := false }, .ret (.code 0))
    | w :: rest =>
      let s := s.setMutex m { mu with ownerTcb := none, locked := false, waitQueue := rest }
      (addToScheduler pol (s.setState w .ready) w).map fun s => (s, .ret (.code 0))

/-- `worker_exit`, up to its `swapcontext`. -/
def exit (pol : Policy) (s : State) (v : Value) : Option (State × After) :=
  match s.runningTcb with
  | none => none
  | some r =>
    let s := s.setTcb r { s.tcb r with state := .terminated, retval := v }
    let s := { s with threadCount := s.threadCount - 1 }
    match (s.tcb r).waitingThread with
    | none => some (s.save r .exited, .enter (.exited v))
    | some w =>
      (addToScheduler pol (s.setState w .ready) w).map fun s =>
        ((s.setTcb r { s.tcb r with waitingThread := none }).save r .exited, .enter (.exited v))

/-- `worker_join`, up to its `swapcontext`. -/
def join (s : State) (thread : ℕ) : Option (State × After) :=
  match findTcbById s.table s.idOf thread with
  | none => some (s, .ret (.code (-1)))
  | some target =>
    match s.runningTcb with
    | none => none
    | some r =>
      if (s.tcb r).id = thread then some (s, .ret (.code (-1)))
      else if (s.tcb target).joined then some (s, .ret (.code (-1)))
      else
        let s := s.setTcb target { s.tcb target with joined := true }
        if (s.tcb target).state = .terminated then
          some (s.cleanupThread target, .ret (.joined thread (s.tcb target).retval))
        else
          let s := s.setState r .blocked
          let s := s.setTcb target { s.tcb target with waitingThread := some r }
          some (s.save r (.joining thread target), .enter .blocked)

/-- `worker_create` with the block `u`. `next_thread_id` is an `int`. -/
def create (pol : Policy) (s : State) (u : TcbPtr) (fresh : Tcb) : Option (State × After) :=
  if s.allocated u = false ∧ s.nextThreadId < 2 ^ 31 - 1 then
    let id := s.nextThreadId
    let added := addThreadToTable s.table u
    let s :=
      { s with
        tcb := update s.tcb u (fresh.create id)
        allocated := update s.allocated u true
        context := update s.context u ⟨u, .user⟩
        nextThreadId := id + 1
        table := added.1
        threadCount := if added.2 then s.threadCount + 2 else s.threadCount + 1 }
    (addToScheduler pol s u).map fun s => (s, .ret (.created id))
  else none

/-- `worker_create` where a `malloc` fails. -/
def createFails (s : State) (stack : Bool) : Option (State × After) :=
  if stack then
    if s.nextThreadId < 2 ^ 31 - 1 then
      some ({ s with nextThreadId := s.nextThreadId + 1, threadCount := s.threadCount + 1 },
        .ret (.code (-1)))
    else none
  else some (s, .ret (.code (-1)))

/-- A computation goes on behind its `swapcontext`. -/
def resume (s : State) : Option (State × After) :=
  match s.cpu.point with
  | .user => none
  | .locking m => lockLoop { s with cpu := ⟨s.cpu.who, .user⟩ } m
  | .joining thread target =>
    let s := { s with cpu := ⟨s.cpu.who, .user⟩ }
    some (s.cleanupThread target, .ret (.joined thread (s.tcb target).retval))
  | .exited => some ({ s with cpu := ⟨s.cpu.who, .user⟩ }, .ret .nothing)

/-- A call of the program, or the delivery of the signal while the program's code is running, up to the
scheduler. -/
def call (pol : Policy) (s : State) : Op → Option (State × After)
  | .tick =>
    match s.runningTcb with
    | none => some (s, .ret .nothing)
    | some r => some (s.save r .user, .enter .preempted)
  | .yield =>
    match s.runningTcb with
    | none => some (s, .ret (.code (-1)))
    | some r => some ((s.setState r .ready).save r .user, .enter .yielded)
  | .exit v => exit pol s v
  | .join thread => join s thread
  | .lock m => lockLoop s m
  | .unlock m => unlock pol s m
  | .mutexInit m => some (s.setMutex m .init, .ret (.code 0))
  | .mutexDestroy m =>
    some (s, .ret (.code (if (s.mutex m).locked ∨ (s.mutex m).waitQueue ≠ [] then -1 else 0)))
  | .create u fresh => create pol s u fresh
  | .createFails stack => createFails s stack
  | .resume => none

/-- A step, up to the scheduler. -/
def act (pol : Policy) (s : State) (op : Op) : Option (State × After) :=
  if op = .resume then resume s
  else if s.cpu.point = .user then call pol s op
  else none

theorem act_resume {pol : Policy} {s : State} {x : State × After}
    (he : act pol s .resume = some x) : resume s = some x := he

theorem act_call {pol : Policy} {s : State} {op : Op} {x : State × After} (hop : op ≠ .resume)
    (he : act pol s op = some x) : s.cpu.point = .user ∧ call pol s op = some x := by
  rw [act, if_neg hop] at he
  split at he
  · next hp => exact ⟨hp, he⟩
  · exact absurd he (by simp)

/-! ### Runs -/

/-- A call of `schedule`, by the `id`s of the threads: who left the CPU and why, and who was
dispatched. -/
structure Switch where
  left : ℕ
  why : Leave
  next : Option ℕ
  deriving DecidableEq, Repr

/-- A step, with the readings of the clock, what it returned, and the call of `schedule` it
made. -/
structure Label where
  op : Op
  entry : ℤ
  dispatch : ℤ
  reply : Reply
  switch : Option Switch
  deriving DecidableEq, Repr

/-- One step. -/
def step (pol : Policy) (s : State) (op : Op) (entry dispatch : ℤ) :
    Option (State × Reply × Option Switch) :=
  match act pol s op with
  | none => none
  | some (s₁, .ret reply) => some (s₁, reply, none)
  | some (s₁, .enter why) =>
    if s.clock ≤ entry ∧ entry ≤ dispatch then
      (schedule pol s₁ entry dispatch).map fun x =>
        ({ x.1 with clock := dispatch }, .nothing,
          some ⟨(s.tcb s.cpu.who).id, why, x.2.map fun p => (x.1.tcb p).id⟩)
    else none

/-- The state after `init_main_thread`, with the main thread in a block of which `malloc` had
made `fresh`. A mutex is as `worker_mutex_init` left it, or the main thread has locked it
before, while `running_tcb` was `NULL`. -/
structure IsInit (s : State) (fresh : Tcb) : Prop where
  tcb : s.tcb s.mainTcb = fresh.main
  allocated : ∀ t, s.allocated t = true ↔ t = s.mainTcb
  table : s.table = initThreadTable
  threadCount : s.threadCount = 0
  nextThreadId : s.nextThreadId = 1
  rrQueue : s.rrQueue = []
  psjfHeap : s.psjfHeap = .init
  mlfqLevels : ∀ i, s.mlfqLevels i = []
  cfsHeap : s.cfsHeap = .init
  globalTicks : s.globalTicks = 0
  timer : s.timer = quantum * 1000
  mutex : ∀ m, s.mutex m = .init ∨ s.mutex m = { Mutex.init with locked := true }
  runningTcb : s.runningTcb = some s.mainTcb
  context : ∀ t, s.context t = ⟨t, .user⟩
  cpu : s.cpu = ⟨s.mainTcb, .user⟩

/-- The library under a policy, when `malloc` returns blocks for control blocks whose contents
are in `Fresh`. -/
def library (pol : Policy) (Fresh : Tcb → Prop) : System State Label where
  init s := ∃ fresh, Fresh fresh ∧ IsInit s fresh
  step s l s' := step pol s l.op l.entry l.dispatch = some (s', l.reply, l.switch) ∧
    ∀ u fresh, l.op = .create u fresh → Fresh fresh

/-! ### Computed runs -/

/-- The contents of the block of a `worker_create`. -/
def Op.Uses (Fresh : Tcb → Prop) : Op → Prop
  | .create _ fresh => Fresh fresh
  | _ => True

/-- Performs operations, each with its readings of the clock, as long as they meet `C`: what the
run is labelled with, and where it ends. -/
def performIf (C : State → Op → Prop) [∀ s op, Decidable (C s op)] (pol : Policy) :
    State → List (Op × ℤ × ℤ) → Option (List Label × State)
  | s, [] => some ([], s)
  | s, (op, entry, dispatch) :: ops =>
    if C s op then
      (step pol s op entry dispatch).bind fun x =>
        (performIf C pol x.1 ops).map fun y =>
          (⟨op, entry, dispatch, x.2.1, x.2.2⟩ :: y.1, y.2)
    else none

theorem run_performIf {C : State → Op → Prop} [∀ s op, Decidable (C s op)] {pol : Policy}
    {Fresh : Tcb → Prop} {ops : List (Op × ℤ × ℤ)} {ls ls' : List Label} {s s' : State}
    (hr : Run ((library pol Fresh).restrict fun s l => C s l.op) ls s)
    (hfresh : ∀ x ∈ ops, x.1.Uses Fresh)
    (h : performIf C pol s ops = some (ls', s')) :
    Run ((library pol Fresh).restrict fun s l => C s l.op) (ls ++ ls') s' := by
  induction ops generalizing ls ls' s with
  | nil =>
    obtain ⟨rfl, rfl⟩ := Prod.mk.inj (Option.some.inj h)
    rw [List.append_nil]
    exact hr
  | cons x ops ih =>
    obtain ⟨op, entry, dispatch⟩ := x
    rw [performIf] at h
    split at h
    -- the first call is a step of the library, the rest follow from the state after it
    · next hC =>
      obtain ⟨⟨s₁, reply, sw⟩, hstep, h⟩ := Option.bind_eq_some_iff.mp h
      obtain ⟨⟨ls₁, s₂⟩, hrest, heq⟩ := Option.map_eq_some_iff.mp h
      obtain ⟨rfl, rfl⟩ := Prod.mk.inj heq
      have huse := hfresh _ List.mem_cons_self
      have hrun : Run ((library pol Fresh).restrict fun s l => C s l.op)
          (ls ++ [⟨op, entry, dispatch, reply, sw⟩]) s₁ := by
        refine hr.step ⟨⟨hstep, ?_⟩, hC⟩
        rintro u fresh (rfl : op = .create u fresh)
        exact huse
      rw [List.append_cons]
      exact ih hrun (fun x hx => hfresh x (List.mem_cons_of_mem _ hx)) hrest
    · exact absurd h (by simp)

/-- The main thread, in block `0`, right after `init_main_thread`, on a heap of zeros. -/
def State.first : State where
  tcb t := if t = 0 then Tcb.zero.main else Tcb.zero
  allocated t := t == 0
  table := initThreadTable
  threadCount := 0
  nextThreadId := 1
  rrQueue := []
  psjfHeap := .init
  mlfqLevels _ := []
  cfsHeap := .init
  globalTicks := 0
  timer := quantum * 1000
  clock := 0
  mutex _ := .init
  mainTcb := 0
  runningTcb := some 0
  context t := ⟨t, .user⟩
  cpu := ⟨0, .user⟩

theorem State.first_isInit : IsInit State.first Tcb.zero where
  tcb := rfl
  allocated _ := beq_iff_eq
  table := rfl
  threadCount := rfl
  nextThreadId := rfl
  rrQueue := rfl
  psjfHeap := rfl
  mlfqLevels _ := rfl
  cfsHeap := rfl
  globalTicks := rfl
  timer := rfl
  mutex _ := .inl rfl
  runningTcb := rfl
  context _ := rfl
  cpu := rfl

/-- A computed run from there. -/
theorem run_first {C : State → Op → Prop} [∀ s op, Decidable (C s op)] {pol : Policy}
    {ops : List (Op × ℤ × ℤ)} {ls : List Label} {s : State}
    (hfresh : ∀ x ∈ ops, x.1.Uses (· = Tcb.zero))
    (h : performIf C pol .first ops = some (ls, s)) :
    Run ((library pol (· = Tcb.zero)).restrict fun s l => C s l.op) ls s := by
  have h0 : Run ((library pol (· = Tcb.zero)).restrict fun s l => C s l.op) [] State.first :=
    .start ⟨Tcb.zero, rfl, State.first_isInit⟩
  exact run_performIf h0 hfresh h

end Library

end ThreadWorker
