import Cs416.Threads.HeapPolicies
import Cs416.Threads.RawHeap
import Cs416.Threads.SchedulerLoop

/-!
# The heap as the library uses it

Under PSJF and CFS a step calls `heap_push` for a thread that it creates, wakes or puts back, and
`heap_pop` for the one it dispatches. `heapCalls` lists these calls, and `rawLibrary` performs
them on the heap in memory (`RawHeap`) beside the steps of the library. In every run the memory
holds the library's heap and the size stays between `0` and `MAX_THREADS`.

Neither function checks the size. The next calls of a run stay inside the array exactly when no
thread is pushed while `MAX_THREADS` are in the heap, and no thread is popped while none is
(`heap_bounds_iff`). Nothing in the library sees to either: `worker_create` takes any number of
threads, and the last thread that can run may block or end.
-/

open Function Lts

namespace ThreadWorker

/-- A call of `heap_push` or `heap_pop`. -/
inductive HeapCall
  | push (cmp : TcbPtr → TcbPtr → ℤ) (thread : TcbPtr)
  | pop (cmp : TcbPtr → TcbPtr → ℤ)

namespace HeapCall

/-- What it leaves of the heap. -/
def run (R : RawHeap) : HeapCall → Option RawHeap
  | push cmp thread => (R.push cmp thread).map fun x => x.2
  | pop cmp => (R.pop cmp).map fun x => x.2.2

/-- It stays inside the array. -/
def Safe (R : RawHeap) : HeapCall → Prop
  | push cmp thread => R.PushSafe cmp thread
  | pop cmp => R.PopSafe cmp

/-- Performs calls one after the other. -/
def runAll : RawHeap → List HeapCall → Option RawHeap
  | R, [] => some R
  | R, c :: cs => (c.run R).bind fun R' => runAll R' cs

/-- Each of the calls stays inside the array. -/
def AllSafe : RawHeap → List HeapCall → Prop
  | _, [] => True
  | R, c :: cs => c.Safe R ∧ ∀ R', c.run R = some R' → AllSafe R' cs

end HeapCall

namespace Library

/-! ### The calls of a step -/

/-- The call of `add_to_scheduler` that the program's call makes before it returns or enters the
scheduler: the state it is made in, and the thread. -/
def queues (s : State) (op : Op) : Option (State × TcbPtr) :=
  if s.cpu.point = .user then
    match op with
    | .exit v =>
      match s.runningTcb with
      | none => none
      | some r =>
        let s := s.setTcb r { s.tcb r with state := .terminated, retval := v }
        let s := { s with threadCount := s.threadCount - 1 }
        (s.tcb r).waitingThread.map fun w => (s.setState w .ready, w)
    | .unlock m =>
      let mu := s.mutex m
      if mu.ownerTcb ≠ s.runningTcb then none
      else
        match mu.waitQueue with
        | [] => none
        | w :: rest =>
          let s := s.setMutex m { mu with ownerTcb := none, locked := false, waitQueue := rest }
          some (s.setState w .ready, w)
    | .create u fresh =>
      if s.allocated u = false ∧ s.nextThreadId < 2 ^ 31 - 1 then
        let id := s.nextThreadId
        let added := addThreadToTable s.table u
        some
          ({ s with
              tcb := update s.tcb u (fresh.create id)
              allocated := update s.allocated u true
              context := update s.context u ⟨u, .user⟩
              nextThreadId := id + 1
              table := added.1
              threadCount := if added.2 then s.threadCount + 2 else s.threadCount + 1 }, u)
      else none
    | _ => none
  else none

/-- The call of `add_to_scheduler` that `schedule` makes, under a policy with a heap. -/
def requeue (pol : Policy) (s : State) (now : ℤ) : Option (State × TcbPtr) :=
  match s.runningTcb with
  | none => none
  | some r =>
    match (s.tcb r).state with
    | .running =>
      let s := s.setState r .ready
      let t := s.tcb r
      match pol with
      | .cfs => some (updateVruntime s r now, r)
      | _ => some (s.setTcb r { t with elapsedQuanta := t.elapsedQuanta + 1 }, r)
    | .ready => some (s.setTcb r { s.tcb r with timeUsed := 0 }, r)
    | _ => none

/-- `add_to_scheduler`, in the state and for the thread of a pair. -/
def pushCall (pol : Policy) (x : State × TcbPtr) : HeapCall := .push (heapCmp pol x.1.tcb) x.2

/-- The call of `heap_pop` in `sched_psjf` or `sched_cfs`. Without a `running_tcb` `sched_cfs`
does not come to it. -/
def popCalls (pol : Policy) (s : State) : List HeapCall :=
  match pol with
  | .cfs =>
    match s.runningTcb with
    | none => []
    | some r =>
      [.pop (cfsCmp
        (s.setTcb r { s.tcb r with cfsTimeslice := cfsSlice s.cfsHeap.size }).tcb)]
  | _ => [.pop (psjfCmp s.tcb)]

/-- The calls that `schedule` makes. -/
def enterCalls (pol : Policy) (s : State) (now : ℤ) : List HeapCall :=
  ((requeue pol s now).map (pushCall pol)).toList ++
    match leave pol s now with
    | none => []
    | some s => popCalls pol s

/-- The calls that a step makes. -/
def heapCalls (pol : Policy) (s : State) (op : Op) (now : ℤ) : List HeapCall :=
  ((queues s op).map (pushCall pol)).toList ++
    match act pol s op with
    | some (s, .enter _) => enterCalls pol s now
    | _ => []

/-- The library, with its heap in memory. -/
def rawLibrary (pol : Policy) (Fresh : Tcb → Prop) : System (State × RawHeap) Label where
  init x := (library pol Fresh).init x.1 ∧ x.2.IsInit
  step x l x' := (library pol Fresh).step x.1 l x'.1 ∧
    HeapCall.runAll x.2 (heapCalls pol x.1 l.op l.entry) = some x'.2

/-! ### The condition -/

/-- `sched_cfs` comes to its `heap_pop`. -/
def PopReached (pol : Policy) (s : State) : Prop :=
  pol = .cfs → ∃ r, s.runningTcb = some r ∧ (s.tcb r).state ≠ .terminated

/-- No push finds the heap full, and no pop finds it empty. -/
structure HeapFits (pol : Policy) (s : State) (op : Op) : Prop where
  queued : (queues s op).isSome → (heapOf pol s).size < maxThreads
  putBack : ∀ s₁ why, act pol s op = some (s₁, .enter why) → PutsBack s₁ →
    (heapOf pol s₁).size < maxThreads
  popped : ∀ s₁ why, act pol s op = some (s₁, .enter why) → ¬ PutsBack s₁ → PopReached pol s₁ →
    0 < (heapOf pol s₁).size

section

variable {pol : Policy} {Fresh : Tcb → Prop} {s s' s₁ s₂ : State} {R : RawHeap} {op : Op}
  {after : After} {entry now : ℤ} {t r : TcbPtr} {ls : List Label} {c : HeapCall}
  {cs : List HeapCall}

/-! ### The calls and the steps -/

/-- A call that adds a thread fails where `add_to_scheduler` does, and changes the heap only
there. -/
theorem act_of_queues (pol : Policy) (h : queues s op = some (s', t)) :
    heapOf pol s' = heapOf pol s ∧ ∃ f : State → State × After,
      act pol s op = (addToScheduler pol s' t).map f ∧
      ∀ s₂, heapOf pol (f s₂).1 = heapOf pol s₂ := by
  unfold queues at h
  split at h
  next hpoint =>
    have hact : ∀ op', op' ≠ .resume → act pol s op' = call pol s op' := fun op' hop => by
      rw [act, if_neg hop, if_pos hpoint]
    split at h
    · -- worker_exit
      split at h
      · exact absurd h (by simp)
      · next hr =>
        obtain ⟨w, hw, heq⟩ := Option.map_eq_some_iff.mp h
        obtain ⟨rfl, rfl⟩ := Prod.mk.inj heq
        rw [hact _ (by simp), call, exit, hr]
        dsimp only at hw ⊢
        rw [hw]
        exact ⟨heapOf_congr ⟨rfl, rfl, rfl, rfl⟩, _, rfl,
          fun _ => heapOf_congr ⟨rfl, rfl, rfl, rfl⟩⟩
    · -- worker_mutex_unlock
      next m =>
      rw [hact _ (by simp), call, unlock]
      dsimp only at h ⊢
      split at h
      · exact absurd h (by simp)
      · next howner =>
        rw [if_neg howner]
        rcases hwait : (s.mutex m).waitQueue with _ | ⟨w, rest⟩ <;> rw [hwait] at h
        · exact absurd h (by simp)
        · obtain ⟨rfl, rfl⟩ := Prod.mk.inj (Option.some.inj h)
          exact ⟨heapOf_congr ⟨rfl, rfl, rfl, rfl⟩, _, rfl, fun _ => rfl⟩
    · -- worker_create
      rw [hact _ (by simp), call, create]
      split at h
      · next hfree =>
        obtain ⟨rfl, rfl⟩ := Prod.mk.inj (Option.some.inj h)
        rw [if_pos hfree]
        exact ⟨heapOf_congr ⟨rfl, rfl, rfl, rfl⟩, _, rfl, fun _ => rfl⟩
      · exact absurd h (by simp)
    · exact absurd h (by simp)
  · exact absurd h (by simp)

/-- The loop of `worker_mutex_lock` leaves the heap alone. -/
theorem heapOf_lockLoop {m : MutexPtr} (he : lockLoop s m = some (s₁, after)) :
    heapOf pol s₁ = heapOf pol s := by
  rw [lockLoop] at he
  dsimp only at he
  split at he
  · split at he
    · exact absurd he (by simp)
    · obtain ⟨rfl, -⟩ := Prod.mk.inj (Option.some.inj he)
      split
      · exact heapOf_congr ⟨rfl, rfl, rfl, rfl⟩
      · exact heapOf_congr ⟨rfl, rfl, rfl, rfl⟩
  · obtain ⟨rfl, -⟩ := Prod.mk.inj (Option.some.inj he)
    exact heapOf_congr ⟨rfl, rfl, rfl, rfl⟩

/-- A call that adds no thread leaves the heap alone. -/
theorem heapOf_act (h : queues s op = none) (he : act pol s op = some (s₁, after)) :
    heapOf pol s₁ = heapOf pol s := by
  -- what goes on behind a `swapcontext` queues nothing
  by_cases hop : op = .resume
  · subst hop
    have he := act_resume he
    rw [resume] at he
    split at he
    · exact absurd he (by simp)
    · rw [heapOf_lockLoop he]
      exact heapOf_congr ⟨rfl, rfl, rfl, rfl⟩
    · obtain ⟨rfl, -⟩ := Prod.mk.inj (Option.some.inj he)
      exact heapOf_congr ⟨rfl, rfl, rfl, rfl⟩
    · obtain ⟨rfl, -⟩ := Prod.mk.inj (Option.some.inj he)
      exact heapOf_congr ⟨rfl, rfl, rfl, rfl⟩
  obtain ⟨hpoint, he⟩ := act_call hop he
  unfold queues at h
  rw [if_pos hpoint] at h
  cases op with
  | resume => exact absurd rfl hop
  | tick =>
    rw [call] at he
    split at he
    · obtain ⟨rfl, -⟩ := Prod.mk.inj (Option.some.inj he)
      rfl
    · obtain ⟨rfl, -⟩ := Prod.mk.inj (Option.some.inj he)
      exact heapOf_congr ⟨rfl, rfl, rfl, rfl⟩
  | yield =>
    rw [call] at he
    split at he
    · obtain ⟨rfl, -⟩ := Prod.mk.inj (Option.some.inj he)
      rfl
    · obtain ⟨rfl, -⟩ := Prod.mk.inj (Option.some.inj he)
      exact heapOf_congr ⟨rfl, rfl, rfl, rfl⟩
  -- without a waiting thread `worker_exit` queues nobody
  | exit v =>
    rw [call, exit] at he
    dsimp only at h
    split at he
    · exact absurd he (by simp)
    · next r hr =>
      rw [hr] at h
      dsimp only at h he
      rw [Option.map_eq_none_iff.mp h] at he
      obtain ⟨rfl, -⟩ := Prod.mk.inj (Option.some.inj he)
      exact heapOf_congr ⟨rfl, rfl, rfl, rfl⟩
  | join thread =>
    rw [call, join] at he
    split at he
    · obtain ⟨rfl, -⟩ := Prod.mk.inj (Option.some.inj he)
      rfl
    · split at he
      · exact absurd he (by simp)
      · dsimp only at he
        split_ifs at he <;> obtain ⟨rfl, -⟩ := Prod.mk.inj (Option.some.inj he) <;>
          exact heapOf_congr ⟨rfl, rfl, rfl, rfl⟩
  | lock m => exact heapOf_lockLoop he
  -- without a waiter `worker_mutex_unlock` queues nobody
  | unlock m =>
    rw [call, unlock] at he
    dsimp only at h he
    split at he
    · obtain ⟨rfl, -⟩ := Prod.mk.inj (Option.some.inj he)
      rfl
    · next howner =>
      rw [if_neg howner] at h
      split at he
      · obtain ⟨rfl, -⟩ := Prod.mk.inj (Option.some.inj he)
        exact heapOf_congr ⟨rfl, rfl, rfl, rfl⟩
      · next hwait =>
        rw [hwait] at h
        exact absurd h (by simp)
  | mutexInit m =>
    obtain ⟨rfl, -⟩ := Prod.mk.inj (Option.some.inj he)
    exact heapOf_congr ⟨rfl, rfl, rfl, rfl⟩
  | mutexDestroy m =>
    obtain ⟨rfl, -⟩ := Prod.mk.inj (Option.some.inj he)
    rfl
  | create u fresh =>
    rw [call, create] at he
    dsimp only at h
    split at he
    · next hfree =>
      rw [if_pos hfree] at h
      exact absurd h (by simp)
    · exact absurd he (by simp)
  | createFails stack =>
    rw [call, createFails] at he
    split_ifs at he <;> obtain ⟨rfl, -⟩ := Prod.mk.inj (Option.some.inj he) <;>
      exact heapOf_congr ⟨rfl, rfl, rfl, rfl⟩

/-- `schedule` puts a thread back by this call, or drops a `running_tcb` that has terminated. -/
theorem leave_eq (hpol : HasHeap pol) : leave pol s now =
    match requeue pol s now with
    | some x => addToScheduler pol x.1 x.2
    | none => some s.dropTerminated := by
  rw [leave, requeue, State.dropTerminated]
  cases s.runningTcb with
  | none => rfl
  | some r =>
    dsimp only
    cases (s.tcb r).state with
    | running => rcases hpol with rfl | rfl <;> rfl
    | ready => rfl
    | blocked => rfl
    | terminated => rfl

theorem requeue_eq_none_iff : requeue pol s now = none ↔ ¬ PutsBack s := by
  rw [requeue, PutsBack]
  cases s.runningTcb with
  | none => simp
  | some r =>
    dsimp only
    cases hst : (s.tcb r).state with
    | running => cases pol <;> simp [hst]
    | ready => simp [hst]
    | blocked => simp [hst]
    | terminated => simp [hst]

theorem requeue_spec (h : requeue pol s now = some (s', t)) :
    heapOf pol s' = heapOf pol s ∧ s'.runningTcb = s.runningTcb := by
  rw [requeue] at h
  split at h
  · exact absurd h (by simp)
  · split at h
    · dsimp only at h
      split at h <;> obtain ⟨rfl, -⟩ := Prod.mk.inj (Option.some.inj h) <;>
        exact ⟨heapOf_congr ⟨rfl, rfl, rfl, rfl⟩, rfl⟩
    · obtain ⟨rfl, -⟩ := Prod.mk.inj (Option.some.inj h)
      exact ⟨heapOf_congr ⟨rfl, rfl, rfl, rfl⟩, rfl⟩
    · exact absurd h (by simp)

/-! ### The calls and the heap in memory -/

/-- A heap in memory that stays inside its array. -/
def Held (pol : Policy) (R : RawHeap) (s : State) : Prop :=
  R.Holds (heapOf pol s) ∧ (heapOf pol s).size ≤ maxThreads

theorem isSome_addToScheduler_heap (hpol : HasHeap pol) (s : State) (t : TcbPtr) :
    (addToScheduler pol s t).isSome ↔ (heapOf pol s).size < maxThreads := by
  rw [isSome_addToScheduler]
  rcases hpol with rfl | rfl <;> exact Iff.rfl

/-- `add_to_scheduler` on the heap in memory. -/
theorem Held.pushCall (hpol : HasHeap pol) (hR : Held pol R s)
    (ha : addToScheduler pol s t = some s₁) :
    ∃ R', (pushCall pol (s, t)).run R = some R' ∧ Held pol R' s₁ ∧ 0 < (heapOf pol s₁).size := by
  have hroom := (isSome_addToScheduler_heap hpol s t).mp (Option.isSome_iff_exists.mpr ⟨s₁, ha⟩)
  obtain ⟨indices, R', h', hpush, -, hp, hR'⟩ :=
    hR.1.push (heapCmp pol s.tcb) (t := t) hroom
  obtain rfl := Option.some.inj (hp.symm.trans (push_of_addToScheduler hpol ha))
  have hsize := MinHeap.size_push hp
  exact ⟨R', by rw [Library.pushCall, HeapCall.run, hpush]; rfl, ⟨hR', by omega⟩, by omega⟩

/-- The first call of a list, when it is a push. -/
theorem Held.allSafe_push (hpol : HasHeap pol) (hR : Held pol R s) :
    HeapCall.AllSafe R (Library.pushCall pol (s, t) :: cs) ↔
      (heapOf pol s).size < maxThreads ∧
        ∀ s₁, addToScheduler pol s t = some s₁ → ∀ R', Held pol R' s₁ →
          (Library.pushCall pol (s, t)).run R = some R' → HeapCall.AllSafe R' cs := by
  have hsafe : (Library.pushCall pol (s, t)).Safe R ↔ (heapOf pol s).size < maxThreads :=
    hR.1.pushSafe_iff _ hR.2
  rw [HeapCall.AllSafe, hsafe]
  refine and_congr_right fun hroom => ?_
  obtain ⟨s₁, ha⟩ := Option.isSome_iff_exists.mp ((isSome_addToScheduler_heap hpol s t).mpr hroom)
  obtain ⟨R', hrun, hR', -⟩ := hR.pushCall hpol ha
  constructor
  · exact fun h _ _ R'' _ hrun' => h R'' hrun'
  · intro h R'' hrun'
    obtain rfl := Option.some.inj (hrun.symm.trans hrun')
    exact h s₁ ha _ hR' hrun

theorem allSafe_singleton : HeapCall.AllSafe R [c] ↔ c.Safe R :=
  and_iff_left fun _ _ => trivial

theorem runAll_singleton : HeapCall.runAll R [c] = c.run R := by
  rw [HeapCall.runAll]
  exact Option.bind_fun_some _

theorem Held.congr (hR : Held pol R s) (h : heapOf pol s' = heapOf pol s) : Held pol R s' := by
  rw [Held, h]
  exact hR

/-- The pop of the scheduling function. -/
theorem Held.popCalls_safe_iff (hpol : HasHeap pol) (hR : Held pol R s) :
    HeapCall.AllSafe R (popCalls pol s) ↔
      ((pol = .cfs → s.runningTcb ≠ none) → 0 < (heapOf pol s).size) := by
  rcases hpol with rfl | rfl
  · rw [popCalls, allSafe_singleton, HeapCall.Safe, hR.1.popSafe_iff _ hR.2]
    · exact ⟨fun h _ => h, fun h => h fun hc => absurd hc (by decide)⟩
    · simp
  · rw [popCalls]
    cases s.runningTcb with
    | none => exact iff_of_true trivial fun h => absurd rfl (h rfl)
    | some r =>
      rw [allSafe_singleton, HeapCall.Safe, hR.1.popSafe_iff _ hR.2]
      exact ⟨fun h _ => h, fun h => h fun _ => by simp⟩

theorem Held.pop (hR : Held pol R s) {cmp : TcbPtr → TcbPtr → ℤ} {n : TcbPtr} {heap : MinHeap}
    (hpop : (heapOf pol s).pop cmp = some (n, heap)) :
    ∃ R', (HeapCall.pop cmp).run R = some R' ∧ R'.Holds heap ∧ heap.size ≤ maxThreads := by
  have hsize := MinHeap.size_pop hpop
  obtain ⟨indices, R', p, h', hraw, -, hp, hR'⟩ := hR.1.pop cmp (by omega) hR.2
  obtain ⟨-, rfl⟩ := Prod.mk.inj (Option.some.inj (hp.symm.trans hpop))
  exact ⟨R', by rw [HeapCall.run, hraw]; rfl, hR', by have := hR.2; omega⟩

theorem Held.popCalls_run (hpol : HasHeap pol) (hR : Held pol R s) {next : Option TcbPtr}
    (h : sched pol s now = some (s', next)) :
    ∃ R', HeapCall.runAll R (popCalls pol s) = some R' ∧ Held pol R' s' := by
  rcases hpol with rfl | rfl
  · obtain ⟨⟨p, heap⟩, hpop, heq⟩ := Option.map_eq_some_iff.mp h
    obtain ⟨rfl, -⟩ := Prod.mk.inj heq
    obtain ⟨R', hrun, hR'⟩ := hR.pop hpop
    rw [popCalls, runAll_singleton]
    · exact ⟨R', hrun, hR'⟩
    · simp
  · rw [sched, schedCfs] at h
    rw [popCalls]
    cases hr : s.runningTcb with
    | none =>
      rw [hr] at h
      exact absurd h (by simp)
    | some r =>
      rw [hr] at h
      obtain ⟨⟨p, heap⟩, hpop, heq⟩ := Option.map_eq_some_iff.mp h
      obtain ⟨rfl, -⟩ := Prod.mk.inj heq
      obtain ⟨R', hrun, hR'⟩ := hR.pop hpop
      rw [runAll_singleton]
      exact ⟨R', hrun, hR'⟩

theorem heapOf_dropTerminated : heapOf pol s.dropTerminated = heapOf pol s := by
  rcases dropTerminated_eq (s := s) with h | h <;> rw [h]
  exact heapOf_congr ⟨rfl, rfl, rfl, rfl⟩

theorem popReached_iff : PopReached pol s ↔ (pol = .cfs → s.dropTerminated.runningTcb ≠ none) := by
  refine imp_congr_right fun _ => ?_
  rw [State.dropTerminated]
  cases hr : s.runningTcb with
  | none => simp [hr]
  | some r =>
    dsimp only
    split
    · next hst => simp [hst]
    · next hst => simp [hr, hst]

/-- **The calls of `schedule`.** -/
theorem Held.enterCalls_safe_iff (hpol : HasHeap pol) (hR : Held pol R s) :
    HeapCall.AllSafe R (enterCalls pol s now) ↔
      (PutsBack s → (heapOf pol s).size < maxThreads) ∧
        (¬ PutsBack s → PopReached pol s → 0 < (heapOf pol s).size) := by
  rw [enterCalls, leave_eq hpol]
  cases hrq : requeue pol s now with
  | none =>
    have hput : ¬ PutsBack s := requeue_eq_none_iff.mp hrq
    have hdrop : Held pol R s.dropTerminated := hR.congr heapOf_dropTerminated
    simp only [Option.map_none, Option.toList_none, List.nil_append]
    rw [hdrop.popCalls_safe_iff hpol, heapOf_dropTerminated, ← popReached_iff]
    exact ⟨fun h => ⟨fun hp => absurd hp hput, fun _ => h⟩, fun h => h.2 hput⟩
  | some x =>
    obtain ⟨s₀, r⟩ := x
    have hput : PutsBack s := by
      by_contra hno
      rw [requeue_eq_none_iff.mpr hno] at hrq
      exact absurd hrq (by simp)
    obtain ⟨hheap, -⟩ := requeue_spec hrq
    simp only [Option.map_some, Option.toList_some, List.singleton_append]
    rw [(hR.congr hheap).allSafe_push hpol, hheap]
    constructor
    · exact fun h => ⟨fun _ => h.1, fun hno => absurd hput hno⟩
    · -- the thread that was put back is there for the pop
      intro h
      refine ⟨h.1 hput, fun s₁ ha R' hR' _ => ?_⟩
      rw [ha]
      refine (hR'.popCalls_safe_iff hpol).mpr fun _ => ?_
      obtain ⟨-, -, -, hpos⟩ := (hR.congr hheap).pushCall hpol ha
      exact hpos

theorem Held.enterCalls_run (hpol : HasHeap pol) (hR : Held pol R s) {next : Option TcbPtr}
    (h : schedule pol s entry now = some (s', next)) :
    ∃ R', HeapCall.runAll R (enterCalls pol s entry) = some R' ∧ Held pol R' s' := by
  obtain ⟨s₁, hleave, hsched⟩ := Option.bind_eq_some_iff.mp h
  rw [enterCalls, hleave]
  rw [leave_eq hpol] at hleave
  cases hrq : requeue pol s entry with
  | none =>
    rw [hrq] at hleave
    obtain rfl := Option.some.inj hleave
    exact (hR.congr heapOf_dropTerminated).popCalls_run hpol hsched
  | some x =>
    obtain ⟨s₀, r⟩ := x
    rw [hrq] at hleave
    obtain ⟨R₁, hrun, hR₁, -⟩ := (hR.congr (requeue_spec hrq).1).pushCall hpol hleave
    obtain ⟨R', hrest, hR'⟩ := hR₁.popCalls_run hpol hsched
    refine ⟨R', ?_, hR'⟩
    simp only [Option.map_some, Option.toList_some, List.singleton_append, HeapCall.runAll, hrun,
      Option.bind_some, hrest]

/-- **The calls of a step.** -/
theorem Held.heapCalls_safe_iff (hpol : HasHeap pol) (hR : Held pol R s) :
    HeapCall.AllSafe R (heapCalls pol s op entry) ↔ HeapFits pol s op := by
  -- when the scheduler is entered, the heap in memory is still that of the model
  have hrest : ∀ R' s₁ why, Held pol R' s₁ → act pol s op = some (s₁, .enter why) →
      (HeapCall.AllSafe R' (enterCalls pol s₁ entry) ↔
        (PutsBack s₁ → (heapOf pol s₁).size < maxThreads) ∧
          (¬ PutsBack s₁ → PopReached pol s₁ → 0 < (heapOf pol s₁).size)) :=
    fun R' s₁ why hR' _ => hR'.enterCalls_safe_iff hpol
  have hfits : HeapFits pol s op ↔ ((queues s op).isSome → (heapOf pol s).size < maxThreads) ∧
      ∀ s₁ why, act pol s op = some (s₁, .enter why) →
        (PutsBack s₁ → (heapOf pol s₁).size < maxThreads) ∧
          (¬ PutsBack s₁ → PopReached pol s₁ → 0 < (heapOf pol s₁).size) :=
    ⟨fun h => ⟨h.queued, fun s₁ why he => ⟨h.putBack s₁ why he, h.popped s₁ why he⟩⟩,
      fun h => ⟨h.1, fun s₁ why he => (h.2 s₁ why he).1, fun s₁ why he => (h.2 s₁ why he).2⟩⟩
  rw [hfits, heapCalls]
  -- a call queues nobody, or one thread before it enters the scheduler
  cases hq : queues s op with
  | none =>
    simp only [Option.map_none, Option.toList_none, List.nil_append, Option.isSome_none,
      Bool.false_eq_true, false_implies, true_and]
    split
    · next s₁ why he =>
      rw [hrest R s₁ why (hR.congr (heapOf_act hq he)) he]
      constructor
      · intro h s₂ why' he'
        obtain ⟨rfl, -⟩ := Prod.mk.inj (Option.some.inj (he.symm.trans he'))
        exact h
      · exact fun h => h s₁ why he
    · next hno => exact iff_of_true trivial fun s₁ why he => absurd he (hno s₁ why)
  | some x =>
    obtain ⟨s₀, t⟩ := x
    obtain ⟨hheap, f, hact, hf⟩ := act_of_queues pol hq
    simp only [Option.map_some, Option.toList_some, List.singleton_append, Option.isSome_some,
      true_implies]
    rw [(hR.congr hheap).allSafe_push hpol, hheap]
    refine and_congr_right fun hroom => ?_
    obtain ⟨s₂, ha⟩ := Option.isSome_iff_exists.mp
      ((isSome_addToScheduler_heap hpol s₀ t).mpr (hheap ▸ hroom))
    have he : act pol s op = some (f s₂) := by rw [hact, ha]; rfl
    obtain ⟨R₂, hrun, hR₂, -⟩ := (hR.congr hheap).pushCall hpol ha
    rw [he]
    rcases hfs : f s₂ with ⟨s₁, after⟩
    have hheap₁ : heapOf pol s₁ = heapOf pol s₂ := by rw [← hf s₂, hfs]
    cases after with
    | ret reply =>
      exact iff_of_true (fun _ _ _ _ _ => trivial) fun _ _ hc => absurd hc (by simp)
    | enter why =>
      constructor
      · intro h s₁' why' hc
        obtain ⟨rfl, -⟩ := Prod.mk.inj (Option.some.inj hc)
        exact ((hR₂.congr hheap₁).enterCalls_safe_iff hpol).mp (h s₂ ha R₂ hR₂ hrun)
      · intro h s₂' ha' R' hR' _
        obtain rfl := Option.some.inj (ha.symm.trans ha')
        exact ((hR'.congr hheap₁).enterCalls_safe_iff hpol).mpr (h s₁ why rfl)

theorem Held.heapCalls_run (hpol : HasHeap pol) (hR : Held pol R s) {reply : Reply}
    {sw : Option Switch} (h : step pol s op entry now = some (s', reply, sw)) :
    ∃ R', HeapCall.runAll R (heapCalls pol s op entry) = some R' ∧ Held pol R' s' := by
  -- what is left of the step when its call has added its thread
  have hrest : ∀ R₁ s₁ after, Held pol R₁ s₁ → act pol s op = some (s₁, after) →
      ∃ R', HeapCall.runAll R₁ (match act pol s op with
        | some (s, .enter _) => enterCalls pol s entry
        | _ => []) = some R' ∧ Held pol R' s' := by
    intro R₁ s₁ after hR₁ he
    rw [step, he] at h
    rw [he]
    cases after with
    | ret r =>
      obtain ⟨rfl, -⟩ := Prod.mk.inj (Option.some.inj h)
      exact ⟨R₁, rfl, hR₁⟩
    | enter why =>
      dsimp only at h
      split at h
      · obtain ⟨⟨s₂, next⟩, hsched, heq⟩ := Option.map_eq_some_iff.mp h
        obtain ⟨rfl, -⟩ := Prod.mk.inj heq
        obtain ⟨R', hrun, hR'⟩ := hR₁.enterCalls_run hpol hsched
        exact ⟨R', hrun, hR'.congr (heapOf_congr ⟨rfl, rfl, rfl, rfl⟩)⟩
      · exact absurd h (by simp)
  obtain ⟨s₁, after, he⟩ : ∃ s₁ after, act pol s op = some (s₁, after) := by
    rw [step] at h
    split at h
    · exact absurd h (by simp)
    · exact ⟨_, _, ‹_›⟩
    · exact ⟨_, _, ‹_›⟩
  rw [heapCalls]
  cases hq : queues s op with
  | none => exact hrest R s₁ after (hR.congr (heapOf_act hq he)) he
  | some x =>
    obtain ⟨s₀, t⟩ := x
    obtain ⟨hheap, f, hact, hf⟩ := act_of_queues pol hq
    rw [hact] at he
    obtain ⟨s₂, ha, hfs⟩ := Option.map_eq_some_iff.mp he
    have hheap₁ : heapOf pol s₁ = heapOf pol s₂ := by rw [← hf s₂, hfs]
    obtain ⟨R₁, hrun, hR₁, -⟩ := (hR.congr hheap).pushCall hpol ha
    obtain ⟨R', hrun', hR'⟩ := hrest R₁ s₁ after (hR₁.congr hheap₁) (hact.trans he)
    refine ⟨R', ?_, hR'⟩
    rw [Option.map_some, Option.toList_some, List.singleton_append, HeapCall.runAll, hrun]
    exact hrun'

/-! ### Runs -/

theorem rawLibrary_held (hpol : HasHeap pol) {x : State × RawHeap}
    (hr : Run (rawLibrary pol Fresh) ls x) : Held pol x.2 x.1 := by
  refine hr.invariant (I := fun x => Held pol x.2 x.1) (fun x hx => ?_) fun x l x' hI hs => ?_
  · obtain ⟨⟨fresh, -, hinit⟩, hR⟩ := hx
    have hheap : heapOf pol x.1 = .init := by
      rcases hpol with rfl | rfl
      · exact hinit.psjfHeap
      · exact hinit.cfsHeap
    rw [Held, hheap]
    exact ⟨hR.holds, Nat.zero_le _⟩
  · obtain ⟨R', hrun, hR'⟩ := hI.heapCalls_run hpol hs.1.1
    rw [Option.some.inj (hs.2.symm.trans hrun)]
    exact hR'

/-- The heap in memory follows every run. -/
theorem exists_rawRun (hpol : HasHeap pol) (hr : Run (library pol Fresh) ls s) :
    ∃ R, Run (rawLibrary pol Fresh) ls (s, R) := by
  induction hr with
  | start h => exact ⟨⟨fun _ => none, 0⟩, .start ⟨h, rfl, fun _ _ _ => rfl⟩⟩
  | step _ hs ih =>
    obtain ⟨R, hr⟩ := ih
    obtain ⟨R', hrun, -⟩ := (rawLibrary_held hpol hr).heapCalls_run hpol hs.1
    exact ⟨R', hr.step ⟨hs, hrun⟩⟩

/-- **The heap stays inside its array exactly as long as it fits**: in every run under PSJF or
CFS, and for every call that follows. -/
theorem heap_bounds_iff (hpol : HasHeap pol) (hr : Run (rawLibrary pol Fresh) ls (s, R)) :
    R.Within ∧ ∀ op entry,
      (HeapCall.AllSafe R (heapCalls pol s op entry) ↔ HeapFits pol s op) :=
  have hR : Held pol R s := rawLibrary_held hpol hr
  ⟨hR.1.within hR.2, fun _ _ => hR.heapCalls_safe_iff hpol⟩

end

/-- The main thread creates thread `1` under PSJF, before anything else. -/
theorem heap_bounds_first_create : ∃ R : RawHeap, R.Within ∧
    HeapCall.AllSafe R (heapCalls .psjf .first (.create 1 Tcb.zero) 0) := by
  have h0 : Run (library .psjf (· = Tcb.zero)) [] State.first :=
    .start ⟨Tcb.zero, rfl, State.first_isInit⟩
  obtain ⟨R, hr⟩ := exists_rawRun (.inl rfl) h0
  have hbounds := heap_bounds_iff (.inl rfl) hr
  obtain ⟨s, hret⟩ : ∃ s, act .psjf .first (.create 1 Tcb.zero) = some (s, .ret (.created 1)) :=
    ⟨_, rfl⟩
  refine ⟨R, hbounds.1, (hbounds.2 _ _).mpr ⟨fun _ => by decide, fun s₁ why he => ?_,
    fun s₁ why he => ?_⟩⟩
  · exact absurd (hret.symm.trans he) (by simp)
  · exact absurd (hret.symm.trans he) (by simp)

/-- The main thread creates thread `1` and ends, and then thread `1` ends as well. -/
theorem empty_heap_popped : ¬ ∀ (pol : Policy) (Fresh : Tcb → Prop) ls s R, HasHeap pol →
    Run (rawLibrary pol Fresh) ls (s, R) → ∀ op entry,
      HeapCall.AllSafe R (heapCalls pol s op entry) := by
  intro h
  obtain ⟨ls, s, hperf, s₁, hact, hrun, hst, hsize⟩ : ∃ ls s,
      performIf (fun _ _ => True) .psjf .first
        [(.create 1 Tcb.zero, 0, 0), (.exit 0, 0, 0)] = some (ls, s) ∧
      ∃ s₁, act .psjf s (.exit 0) = some (s₁, .enter (.exited 0)) ∧ s₁.runningTcb = some 1 ∧
        (s₁.tcb 1).state = .terminated ∧ s₁.psjfHeap.size = 0 :=
    ⟨_, _, rfl, _, rfl, rfl, rfl, rfl⟩
  have hr : Run (library .psjf (· = Tcb.zero)) ls s :=
    (run_first (by simp [Op.Uses]) hperf).of_restrict
  obtain ⟨R, hr⟩ := exists_rawRun (.inl rfl) hr
  have hfits := ((rawLibrary_held (.inl rfl) hr).heapCalls_safe_iff (.inl rfl)).mp
    (h .psjf _ ls s R (.inl rfl) hr (.exit 0) 0)
  have hpos : 0 < s₁.psjfHeap.size := by
    refine hfits.popped s₁ _ hact ?_ fun hc => absurd hc (by decide)
    rintro ⟨r, hr', hlive⟩
    obtain rfl := Option.some.inj (hrun.symm.trans hr')
    rw [hst] at hlive
    exact absurd hlive (by simp)
  omega

end Library

end ThreadWorker
