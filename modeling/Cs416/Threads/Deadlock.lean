import Cs416.Lib.WaitGraph
import Cs416.Threads.SoundRuns

/-!
# Deadlock

The library loses no thread: a blocked thread is in the queue of a mutex or joins another one, and
a mutex with a queue is locked or one of its waiters has been woken (`Tracked`). So when the
scheduler finds no thread ready, the program has only itself to blame (`no_thread_ready`): the
threads wait for one another in a cycle, or for a mutex that nobody is left to unlock.
-/

open Function Lts Relation WaitGraph

namespace ThreadWorker

namespace Library

/-- A mutex with waiters is locked, or a thread that was taken out of its queue is about to try
again. -/
def Served (s : State) (cur : Option TcbPtr) (m : MutexPtr) : Prop :=
  (s.mutex m).waitQueue ≠ [] → (s.mutex m).locked = true ∨
    ∃ w, s.allocated w = true ∧ ((s.tcb w).state = .ready ∨ (s.tcb w).state = .running) ∧
      s.pointOf cur w = .locking m

/-- What a blocked thread waits for. -/
def Waits (s : State) (cur : Option TcbPtr) (t : TcbPtr) : Prop :=
  (∃ m, t ∈ (s.mutex m).waitQueue) ∨ ∃ thread x, s.pointOf cur t = .joining thread x

/-- **No thread is lost.** -/
structure Tracked (s : State) (cur : Option TcbPtr) : Prop where
  served : ∀ m, Served s cur m
  waits : ∀ t, s.allocated t = true → (s.tcb t).state = .blocked → Waits s cur t

/-- The thread on the CPU behind a call of `r`. -/
def After.cur (r : TcbPtr) : After → Option TcbPtr
  | .ret _ => some r
  | .enter _ => none

section

variable {pol : Policy} {s s₁ : State} {r u x n : TcbPtr} {after : After} {m : MutexPtr} {v : Value}
  {thread : ℕ} {q : Multiset TcbPtr}

/-- Nor does `schedule`. -/
theorem Tracked.schedule {s' : State} (h : Tracked s none) (hs : Scheduled pol s r s' n) :
    Tracked s' (some n) := by
  obtain ⟨hserved, hwaits⟩ := h
  obtain ⟨halloc, -, -, -, hmutex, -, hctx, -, hstate⟩ := hs.keeps
  have hcode := hs.cpu
  simp only [Served, Waits, State.pointOf, State.stateOf, settled, update_apply] at hserved hwaits hstate
  constructor <;> simp only [Served, Waits, State.pointOf, halloc, hmutex, hctx, hstate, hcode] <;>
    grind

/-- The orderly runs in which no mutex is initialised while threads wait for it. -/
abbrev tidy (pol : Policy) : System State Label :=
  (orderly pol).restrict fun s l => ∀ m, l.op = .mutexInit m → (s.mutex m).waitQueue = []

/-- `t` is blocked. -/
def Blocked (s : State) (t : TcbPtr) : Prop :=
  s.allocated t = true ∧ (s.tcb t).state = .blocked

/-- `t` waits for `u`, which has locked the mutex or is to end. -/
def WaitsFor (s : State) (t u : TcbPtr) : Prop :=
  Blocked s t ∧ ((∃ m, t ∈ (s.mutex m).waitQueue ∧ (s.mutex m).ownerTcb = some u) ∨
    ∃ thread, (s.context t).point = .joining thread u)

end

end Library

end ThreadWorker
