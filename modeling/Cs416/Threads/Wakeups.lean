import Cs416.Threads.OwnContexts

/-!
# Waiting threads and those that wake them

The invariants behind `worker_mutex_lock` and `worker_join` putting a thread to sleep. They do
not hold in every run: between its failed test and its registration as a waiter a thread is
invisible to the unlock or the exit that should wake it. `Timely` says that no test falls into
such a window, and under it `LockInv` and `JoinInv` are kept.
-/

open Function Lts

namespace ThreadWorker

/-- The mutex whose `worker_mutex_lock` the statement belongs to. -/
def Pc.lockOf : Pc → Option MutexPtr
  | .testAndSet m | .checkBlocked m | .setBlocked m | .enqueueSelf m | .lockSwap m
  | .setOwner m => some m
  | _ => none

/-- The mutex whose `worker_mutex_unlock` the statement belongs to. -/
def Pc.unlockOf : Pc → Option MutexPtr
  | .checkOwner m | .clearOwner m | .clearFlag m | .checkQueue m | .dequeueWaiter m
  | .readyWaiter m _ | .addWaiter m _ => some m
  | _ => none

/-- The thread is in the middle of `worker_mutex_lock` or `worker_mutex_unlock` on `m`. -/
def Pc.OnMutex (m : MutexPtr) (p : Pc) : Prop := p.lockOf = some m ∨ p.unlockOf = some m

/-- A waiter goes back to the test-and-set from here. -/
def Pc.retryOf : Pc → Option MutexPtr
  | .lockSwap m | .testAndSet m => some m
  | _ => none

/-- The thread has found the flag set and is not in the wait queue yet. -/
def Pc.unqueuedOf : Pc → Option MutexPtr
  | .checkBlocked m | .setBlocked m | .enqueueSelf m => some m
  | _ => none

/-- An unlock has cleared the flag and not yet made a waiter READY. -/
def Pc.wakesOf : Pc → Option MutexPtr
  | .checkQueue m | .dequeueWaiter m | .readyWaiter m _ => some m
  | _ => none

section
variable {p : Pc} {m : MutexPtr}

theorem Pc.lockOf_of_retryOf (h : p.retryOf = some m) : p.lockOf = some m := by
  cases p <;> simp_all [Pc.retryOf, Pc.lockOf]

theorem Pc.lockOf_of_unqueuedOf (h : p.unqueuedOf = some m) : p.lockOf = some m := by
  cases p <;> simp_all [Pc.unqueuedOf, Pc.lockOf]

theorem Pc.unlockOf_of_wakesOf (h : p.wakesOf = some m) : p.unlockOf = some m := by
  cases p <;> simp_all [Pc.wakesOf, Pc.unlockOf]

end

def State.stateOf (s : State) (t : TcbPtr) : ThreadState := (s.shared.tcb t).state

/-- `b` waits for the mutex, or is about to. -/
def State.Pending (s : State) (m : MutexPtr) (b : TcbPtr) : Prop :=
  (s.pcOf b).unqueuedOf = some m ∨ s.stateOf b = .blocked ∧ (s.pcOf b).retryOf = some m

/-- `c` will make a waiter of the mutex READY, or try for the flag itself. -/
def State.Helps (s : State) (m : MutexPtr) (c : TcbPtr) : Prop :=
  (s.pcOf c).wakesOf = some m ∨ s.stateOf c ≠ .blocked ∧ (s.pcOf c).retryOf = some m

/-- The wait queue of `m` holds the threads that sleep on it. -/
structure QueueInv (s : State) (m : MutexPtr) : Prop where
  nodup : (s.shared.mutex m).waitQueue.Nodup
  queued : ∀ t ∈ (s.shared.mutex m).waitQueue, s.stateOf t = .blocked ∧ (s.pcOf t).retryOf = some m
  /-- A sleeper is queued, or has just been dequeued to be woken. -/
  sleeping : ∀ t, s.stateOf t = .blocked → (s.pcOf t).retryOf = some m →
    t ∈ (s.shared.mutex m).waitQueue ∨ ∃ a, s.pcOf a = .readyWaiter m (some t)
  woken : ∀ a t, s.pcOf a = .readyWaiter m (some t) →
    s.stateOf t = .blocked ∧ (s.pcOf t).retryOf = some m ∧ t ∉ (s.shared.mutex m).waitQueue
  one : ∀ a a' t, s.pcOf a = .readyWaiter m (some t) → s.pcOf a' = .readyWaiter m (some t) →
    a = a'

/-- While the flag of `m` is clear, whoever waits for it has a helper. -/
structure LockInv (s : State) (m : MutexPtr) : Prop where
  queue : QueueInv s m
  helped : (s.shared.mutex m).locked = false → ∀ b, s.Pending m b → ∃ c, s.Helps m c

/-- The statements at which a thread may be BLOCKED. -/
def Pc.mayBlock : Pc → Bool
  | .enqueueSelf _ | .lockSwap _ | .testAndSet _ | .setWaiting _ | .joinSwap _
  | .readRetval _ => true
  | _ => false

/-- The statements at which a BLOCKED thread may be on the CPU, on its way to the scheduler. -/
def Pc.blocksSelf : Pc → Bool
  | .enqueueSelf _ | .lockSwap _ | .setWaiting _ | .joinSwap _ => true
  | _ => false

/-- Where a thread is BLOCKED. -/
structure StateInv (s : State) : Prop where
  mayBlock : ∀ t, s.stateOf t = .blocked → (s.pcOf t).mayBlock = true
  onCpu : ∀ t, s.onCpu = some t → s.stateOf t = .blocked → (s.pcOf t).blocksSelf = true
  enqueues : ∀ t m, s.pcOf t = .enqueueSelf m → s.stateOf t = .blocked

section
variable {s s' : State} {m : MutexPtr} {t : TcbPtr} {sh : Shared} {next : Next}

attribute [local grind] Pc.retryOf Pc.unqueuedOf Pc.wakesOf Pc.blocksSelf State.Pending State.Helps
  Next.pc
attribute [local grind →] Pc.lockOf_of_retryOf Pc.lockOf_of_unqueuedOf Pc.unlockOf_of_wakesOf

/-- A step that touches neither the mutex nor a thread in a call on it keeps its queue. -/
theorem LockInv.frame (h : LockInv s m) (hmu : s'.shared.mutex m = s.shared.mutex m)
    (hpc : ∀ t, (s.pcOf t).OnMutex m ∨ (s'.pcOf t).OnMutex m →
      s'.pcOf t = s.pcOf t ∧ (s'.stateOf t = .blocked ↔ s.stateOf t = .blocked)) :
    LockInv s' m := by
  obtain ⟨⟨hnodup, hqueued, hsleeping, hwoken, hone⟩, hhelped⟩ := h
  have hwaker : ∀ a t, s.pcOf a = .readyWaiter m (some t) ↔
      s'.pcOf a = .readyWaiter m (some t) := by
    intro a t
    constructor <;> intro ha
    · rw [(hpc a (.inl (by rw [ha]; exact .inr rfl))).1, ha]
    · rw [← (hpc a (.inr (by rw [ha]; exact .inr rfl))).1, ha]
  refine ⟨⟨by grind, ?_, ?_, ?_, ?_⟩, ?_⟩
  · grind [Pc.OnMutex]
  · simp only [← hwaker]
    grind [Pc.OnMutex]
  · simp only [← hwaker]
    grind [Pc.OnMutex]
  · simp only [← hwaker]
    exact hone
  · intro hl b hb
    obtain ⟨c, hc⟩ := hhelped (hmu ▸ hl) b (by grind [Pc.OnMutex])
    exact ⟨c, by grind [Pc.OnMutex]⟩

/-- A statement of `worker_mutex_lock` keeps the wait queue in order. -/
theorem QueueInv.stmt_lock (h : QueueInv s m) (hst : StateInv s) (hon : s.onCpu = some t)
    (hm : (s.pcOf t).lockOf = some m)
    (he : exec s.mainTcb t s.shared (some t) (s.pcOf t) = some (sh, next))
    (hmu : s'.shared.mutex m = sh.mutex m)
    (hpc : ∀ u, s'.pcOf u = if u = t then next.pc else s.pcOf u)
    (hblocked : ∀ u, s'.stateOf u = .blocked ↔ (sh.tcb u).state = .blocked) :
    QueueInv s' m := by
  obtain ⟨hnodup, hqueued, hsleeping, hwoken, hone⟩ := h
  obtain ⟨-, honCpu, henq⟩ := hst
  cases hp : s.pcOf t <;> rw [hp] at he hm <;>
    simp only [Pc.lockOf, reduceCtorEq, Option.some.injEq] at hm <;> subst hm <;>
    simp only [exec, Option.bind_some] at he <;>
    refine ⟨?_, ?_, ?_, ?_, ?_⟩ <;>
    grind -ring -linarith -order -ac -lia [State.stateOf]

/-- A statement of `worker_mutex_unlock` keeps the wait queue in order. -/
theorem QueueInv.stmt_unlock (h : QueueInv s m) (hm : (s.pcOf t).unlockOf = some m)
    (he : exec s.mainTcb t s.shared (some t) (s.pcOf t) = some (sh, next))
    (hmu : s'.shared.mutex m = sh.mutex m)
    (hpc : ∀ u, s'.pcOf u = if u = t then next.pc else s.pcOf u)
    (hblocked : ∀ u, s'.stateOf u = .blocked ↔ (sh.tcb u).state = .blocked) :
    QueueInv s' m := by
  obtain ⟨hnodup, hqueued, hsleeping, hwoken, hone⟩ := h
  cases hp : s.pcOf t <;> rw [hp] at he hm <;>
    simp only [Pc.unlockOf, reduceCtorEq, Option.some.injEq] at hm <;> subst hm <;>
    simp only [exec, Option.bind_eq_some_iff] at he <;>
    refine ⟨?_, ?_, ?_, ?_, ?_⟩ <;>
    grind -ring -linarith -order -ac -lia [State.stateOf]

/-- A statement of `worker_mutex_lock` takes away no helper while the flag is clear. -/
theorem LockInv.stmt_lock (h : LockInv s m) (hst : StateInv s) (hon : s.onCpu = some t)
    (hm : (s.pcOf t).lockOf = some m)
    (he : exec s.mainTcb t s.shared (some t) (s.pcOf t) = some (sh, next))
    (hmu : s'.shared.mutex m = sh.mutex m)
    (hpc : ∀ u, s'.pcOf u = if u = t then next.pc else s.pcOf u)
    (hblocked : ∀ u, s'.stateOf u = .blocked ↔ (sh.tcb u).state = .blocked) :
    LockInv s' m := by
  refine ⟨h.queue.stmt_lock hst hon hm he hmu hpc hblocked, fun hl b hb => ?_⟩
  have hhelped := h.helped
  cases hp : s.pcOf t <;> rw [hp] at he hm <;>
    simp only [Pc.lockOf, reduceCtorEq, Option.some.injEq] at hm <;> subst hm <;>
    simp only [exec, Option.bind_some] at he
  case testAndSet => grind
  all_goals
    obtain ⟨c, hc⟩ := hhelped (by grind) b (by grind -ring -linarith -order -ac -lia [State.stateOf])
    exact ⟨c, by grind -ring -linarith -order -ac -lia [State.stateOf]⟩

/-- A statement of `worker_mutex_unlock` leaves no waiter without a helper, unless it finds the
wait queue empty while a waiter has not reached it yet. -/
theorem LockInv.stmt_unlock (h : LockInv s m) (hm : (s.pcOf t).unlockOf = some m)
    (he : exec s.mainTcb t s.shared (some t) (s.pcOf t) = some (sh, next))
    (hmu : s'.shared.mutex m = sh.mutex m)
    (hpc : ∀ u, s'.pcOf u = if u = t then next.pc else s.pcOf u)
    (hblocked : ∀ u, s'.stateOf u = .blocked ↔ (sh.tcb u).state = .blocked)
    (hwindow : s.pcOf t = .checkQueue m → (s.shared.mutex m).locked = false →
      (s.shared.mutex m).waitQueue = [] → ∀ u, (s.pcOf u).unqueuedOf ≠ some m) :
    LockInv s' m := by
  refine ⟨h.queue.stmt_unlock hm he hmu hpc hblocked, fun hl b hb => ?_⟩
  obtain ⟨⟨-, -, hsleeping, hwoken, -⟩, hhelped⟩ := h
  cases hp : s.pcOf t <;> rw [hp] at he hm <;>
    simp only [Pc.unlockOf, reduceCtorEq, Option.some.injEq] at hm <;> subst hm <;>
    simp only [exec, Option.bind_eq_some_iff] at he
  case clearFlag m => exact ⟨t, .inl (by grind)⟩
  case checkQueue m =>
    by_cases hq : (s.shared.mutex m).waitQueue = []
    · -- nobody is on the way to the queue, so the waiter is being woken
      have hb' : s.stateOf b = .blocked ∧ (s.pcOf b).retryOf = some m := by
        have := hwindow hp (by grind) hq b
        grind -ring -linarith -order -ac -lia [State.stateOf]
      obtain hmem | ⟨a, ha⟩ := hsleeping b hb'.1 hb'.2
      · rw [hq] at hmem
        exact absurd hmem (by simp)
      · exact ⟨a, .inl (by grind)⟩
    · exact ⟨t, .inl (by grind)⟩
  case dequeueWaiter m => exact ⟨t, .inl (by grind)⟩
  case readyWaiter m w =>
    obtain ⟨w, rfl, he⟩ := he
    obtain ⟨hwb, hwr, -⟩ := hwoken t w hp
    exact ⟨w, .inr ⟨by grind, by grind⟩⟩
  all_goals
    obtain ⟨c, hc⟩ := hhelped (by grind) b (by grind -ring -linarith -order -ac -lia [State.stateOf])
    exact ⟨c, by grind -ring -linarith -order -ac -lia [State.stateOf]⟩
end

/-- The thread is past the test of `target->joined` in `worker_join`. -/
def Pc.joinOf : Pc → Option TcbPtr
  | .markJoined u | .checkTerminated u | .markJoinedAgain u | .blockSelf u | .setWaiting u
  | .joinSwap u | .readRetval u | .cleanup u => some u
  | _ => none

/-- The thread has found its target alive and is not registered with it yet. -/
def Pc.unregisteredOf : Pc → Option TcbPtr
  | .markJoinedAgain u | .blockSelf u | .setWaiting u => some u
  | _ => none

/-- A joiner sleeps here. -/
def Pc.sleepsOf : Pc → Option TcbPtr
  | .joinSwap u | .readRetval u => some u
  | _ => none

/-- The thread will not look at its `waiting_thread` again to wake it. -/
def Pc.ended : Pc → Bool
  | .addJoiner | .clearWaiting | .exitSwap | .exited => true
  | _ => false

/-- The thread has marked itself TERMINATED in `worker_exit`. -/
def Pc.exits : Pc → Bool
  | .setRetval _ | .checkWaiting | .readWaiting | .readyJoiner _ | .addJoiner | .clearWaiting
  | .exitSwap | .exited => true
  | _ => false

section
variable {p : Pc} {u : TcbPtr}

theorem Pc.exits_of_ended (h : p.ended = true) : p.exits = true := by
  cases p <;> simp_all [Pc.ended, Pc.exits]

theorem Pc.joinOf_of_unregisteredOf (h : p.unregisteredOf = some u) : p.joinOf = some u := by
  cases p <;> simp_all [Pc.unregisteredOf, Pc.joinOf]

theorem Pc.joinOf_of_sleepsOf (h : p.sleepsOf = some u) :
    p.joinOf = some u ∧ p.unregisteredOf = none := by
  cases p <;> simp_all [Pc.sleepsOf, Pc.joinOf, Pc.unregisteredOf]

end

/-- The statement belongs to `worker_join`. -/
def Pc.inJoin : Pc → Bool
  | .findTarget _ | .checkSelf _ _ | .checkJoined _ | .markJoined _ | .checkTerminated _
  | .markJoinedAgain _ | .blockSelf _ | .setWaiting _ | .joinSwap _ | .readRetval _
  | .cleanup _ => true
  | _ => false

/-- The statement belongs to `worker_exit`. -/
def Pc.inExit : Pc → Bool
  | .setTerminated _ | .setRetval _ | .checkWaiting | .readWaiting | .readyJoiner _
  | .addJoiner | .clearWaiting | .exitSwap | .exited => true
  | _ => false

/-- The control block `u` is freed once, and by the only thread past the test of its `joined`
field. -/
structure TargetInv (s : State) (u : TcbPtr) : Prop where
  allocated : ∀ j, (s.pcOf j).joinOf = some u → s.shared.allocated u = true
  /-- A block that is found, or was, has not been freed unless it is marked as joined. -/
  found : ∀ j, (∃ i, s.pcOf j = .checkSelf i u) ∨ s.pcOf j = .checkJoined u →
    s.shared.allocated u = true ∨ (s.shared.tcb u).joined = true
  table : some u ∈ s.shared.table →
    s.shared.allocated u = true ∨ (s.shared.tcb u).joined = true
  marked : ∀ j, (s.pcOf j).joinOf = some u → s.pcOf j ≠ .markJoined u →
    (s.shared.tcb u).joined = true
  one : ∀ j j', (s.pcOf j).joinOf = some u → (s.pcOf j').joinOf = some u → j = j'

/-- A thread that sleeps in `worker_join(u)` is registered with `u`, and `u` has not passed the
point of `worker_exit` where it wakes its joiner. -/
structure JoinInv (s : State) (u : TcbPtr) : Prop where
  registered : ∀ j, s.stateOf j = .blocked → (s.pcOf j).sleepsOf = some u →
    (s.shared.tcb u).waitingThread = some j
  unregistered : ∀ j, (s.pcOf j).unregisteredOf = some u → (s.pcOf u).ended = false
  awaited : ∀ j, s.stateOf j = .blocked → (s.pcOf j).sleepsOf = some u → (s.pcOf u).ended = false
  exits : (s.pcOf u).exits = true → s.stateOf u = .terminated

section
variable {s s' : State} {u t : TcbPtr} {sh : Shared} {next : Next}

attribute [local grind] Pc.joinOf Pc.unregisteredOf Pc.sleepsOf Pc.ended Pc.exits Pc.blocksSelf
  Next.pc
attribute [local grind →] Pc.exits_of_ended Pc.joinOf_of_unregisteredOf Pc.joinOf_of_sleepsOf

/-- A statement of `worker_join` keeps the target's block, unless two threads pass the test of
`joined` before either has set it. -/
theorem TargetInv.stmt (h : TargetInv s u) (hp : (s.pcOf t).inJoin = true)
    (he : exec s.mainTcb t s.shared (some t) (s.pcOf t) = some (sh, next))
    (hjoined : ∀ v, (s'.shared.tcb v).joined = (sh.tcb v).joined)
    (htable : s'.shared.table = sh.table)
    (halloc : ∀ v, s'.shared.allocated v = sh.allocated v)
    (hpc : ∀ v, s'.pcOf v = if v = t then next.pc else s.pcOf v)
    (htest : ∀ v, s.pcOf t = .checkJoined v → (s.shared.tcb v).joined = false →
      ∀ j, j ≠ t → s.pcOf j ≠ .markJoined v) :
    TargetInv s' u := by
  obtain ⟨ha, hf, htab, hm, ho⟩ := h
  cases hpt : s.pcOf t <;> rw [hpt] at he hp <;>
    simp only [Pc.inJoin, reduceCtorEq] at hp <;>
    simp only [exec, Option.bind_some] at he <;>
    refine ⟨?_, ?_, ?_, ?_, ?_⟩ <;>
    grind -ring -linarith -order -ac -lia [mem_of_findTcbById]

/-- A statement of `worker_join` registers the thread before it sleeps. -/
theorem JoinInv.stmt_join (h : JoinInv s u) (htarget : TargetInv s u) (hst : StateInv s)
    (hon : s.onCpu = some t) (hp : (s.pcOf t).inJoin = true)
    (he : exec s.mainTcb t s.shared (some t) (s.pcOf t) = some (sh, next))
    (hwaiting : ∀ v, (s'.shared.tcb v).waitingThread = (sh.tcb v).waitingThread)
    (hpc : ∀ v, s'.pcOf v = if v = t then next.pc else s.pcOf v)
    (hblocked : ∀ v, s'.stateOf v = .blocked ↔ (sh.tcb v).state = .blocked)
    (hterm : ∀ v, s'.stateOf v = .terminated ↔ (sh.tcb v).state = .terminated) :
    JoinInv s' u := by
  obtain ⟨hr, hun, haw, hex⟩ := h
  have honCpu := hst.onCpu
  have hone := htarget.one
  cases hpt : s.pcOf t <;> rw [hpt] at he hp <;>
    simp only [Pc.inJoin, reduceCtorEq] at hp <;>
    simp only [exec, Option.bind_some] at he <;>
    refine ⟨?_, ?_, ?_, ?_⟩ <;>
    grind -ring -linarith -order -ac -lia [State.stateOf]

/-- A statement of `worker_exit` leaves no sleeping joiner behind, unless the thread finds
nobody waiting while a joiner has not registered yet, or wakes another thread than the one
that joins it. -/
theorem JoinInv.stmt_exit (h : JoinInv s u) (htarget : TargetInv s u)
    (hp : (s.pcOf t).inExit = true)
    (he : exec s.mainTcb t s.shared (some t) (s.pcOf t) = some (sh, next))
    (hwaiting : ∀ v, (s'.shared.tcb v).waitingThread = (sh.tcb v).waitingThread)
    (hpc : ∀ v, s'.pcOf v = if v = t then next.pc else s.pcOf v)
    (hblocked : ∀ v, s'.stateOf v = .blocked ↔ (sh.tcb v).state = .blocked)
    (hterm : ∀ v, s'.stateOf v = .terminated ↔ (sh.tcb v).state = .terminated)
    (hwindow : s.pcOf t = .checkWaiting → (s.shared.tcb t).waitingThread = none →
      ∀ j, (s.pcOf j).unregisteredOf ≠ some t)
    (hjoiner : ∀ w, s.pcOf t = .readyJoiner w →
      s.stateOf w = .blocked ∧ (s.pcOf w).sleepsOf = some t) :
    JoinInv s' u := by
  obtain ⟨hr, hun, haw, hex⟩ := h
  have hone := htarget.one
  cases hpt : s.pcOf t <;> rw [hpt] at he hp <;>
    simp only [Pc.inExit, reduceCtorEq] at hp <;>
    simp only [exec, Option.bind_some, Option.bind_eq_some_iff] at he <;>
    refine ⟨?_, ?_, ?_, ?_⟩ <;>
    grind -ring -linarith -order -ac -lia [State.stateOf]
end

end ThreadWorker
