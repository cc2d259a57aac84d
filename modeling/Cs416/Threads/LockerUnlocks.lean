import Cs416.Threads.SchedulerLoop
import Cs416.Threads.SoundRuns

/-!
# The locker can unlock

`worker_mutex_lock` records `running_tcb` as the owner of the mutex and `worker_mutex_unlock`
compares it with `running_tcb`, so a thread can unlock what it has locked as long as both calls
find its own control block there. That takes

* that `running_tcb` is the thread on the CPU: it is set by the first `worker_create` and by every
  dispatch, but not by the fallback to the main thread (`StaysOwn`);
* that the first `worker_create` does not come between the two calls of the main thread: before it
  `running_tcb` is `NULL`, and `NULL` is what the lock records.

`process` is the library from the start of the program on, with `init_main_thread` at the first
`worker_create`. `Locks` is proof-only: which thread has locked which mutex and not unlocked it
since, and which mutexes the main thread held at the first `worker_create`.
-/

open Function Lts

namespace ThreadWorker

namespace Library

/-! ### The program from its start on -/

/-- Whether `main_tcb` is set, and the library. -/
structure Process where
  started : Bool
  lib : State

/-- The start of the program. `mainTcb` is the block that `malloc` will return for the main
thread. -/
structure IsStart (s : State) : Prop where
  allocated : ∀ t, s.allocated t = false
  table : s.table = initThreadTable
  threadCount : s.threadCount = 0
  nextThreadId : s.nextThreadId = 1
  globalTicks : s.globalTicks = 0
  mutex : ∀ m, s.mutex m = .init
  runningTcb : s.runningTcb = none
  context : ∀ t, s.context t = ⟨t, .user⟩
  cpu : s.cpu = ⟨s.mainTcb, .user⟩

/-- `init_main_thread`, with `init_scheduler`, `init_timer` and `init_thread_table`. -/
def initMainThread (s : State) (fresh : Tcb) : State :=
  { s with
    tcb := update s.tcb s.mainTcb fresh.main
    allocated := update s.allocated s.mainTcb true
    table := initThreadTable
    threadCount := 0
    rrQueue := []
    psjfHeap := .init
    mlfqLevels := fun _ => []
    cfsHeap := .init
    timer := quantum * 1000
    runningTcb := some s.mainTcb }

/-- `worker_create`, which calls `init_main_thread` first. -/
def Op.creates : Op → Bool
  | .create _ _ | .createFails _ => true
  | _ => false

/-- One step of the program. -/
inductive ProcessStep (pol : Policy) (Fresh : Tcb → Prop) : Process → Label → Process → Prop
  | lib {started s l s'} (hop : started = true ∨ l.op.creates = false)
      (h : (library pol Fresh).step s l s') :
      ProcessStep pol Fresh ⟨started, s⟩ l ⟨started, s'⟩
  | first {s l s' fresh} (hop : l.op.creates = true) (hfresh : Fresh fresh)
      (h : (library pol Fresh).step (initMainThread s fresh) l s') :
      ProcessStep pol Fresh ⟨false, s⟩ l ⟨true, s'⟩

/-- The library from the start of the program on. -/
def process (pol : Policy) (Fresh : Tcb → Prop) : System Process Label where
  init p := p.started = false ∧ IsStart p.lib
  step := ProcessStep pol Fresh

/-- The first `worker_create` leaves what the runs of the library begin with. -/
theorem IsStart.isInit {s : State} (h : IsStart s) (fresh : Tcb) :
    IsInit (initMainThread s fresh) fresh where
  tcb := update_self _ _ _
  allocated t := by
    simp only [initMainThread, update_apply, h.allocated]
    split <;> simp_all
  table := rfl
  threadCount := rfl
  nextThreadId := h.nextThreadId
  rrQueue := rfl
  psjfHeap := rfl
  mlfqLevels _ := rfl
  cfsHeap := rfl
  globalTicks := h.globalTicks
  timer := rfl
  mutex m := .inl (h.mutex m)
  runningTcb := rfl
  context := h.context
  cpu := h.cpu

/-! ### Who has locked what -/

/-- The locks that threads hold. -/
structure Locks where
  /-- `worker_mutex_lock(m)` returned `0` in `t`, which has not unlocked `m` since. -/
  held : MutexPtr → TcbPtr → Bool
  /-- The main thread held `m` at the first `worker_create`. -/
  early : MutexPtr → Bool

namespace Locks

def set (g : Locks) (m : MutexPtr) (t : TcbPtr) (b : Bool) : Locks :=
  { g with held := update g.held m (update (g.held m) t b) }

/-- No lock is held yet. -/
def empty : Locks where
  held _ _ := false
  early _ := false

/-- The mutex that the call of a step tries to lock. -/
def locking (s : State) : Op → Option MutexPtr
  | .lock m => some m
  | .resume =>
    match s.cpu.point with
    | .locking m => some m
    | _ => none
  | _ => none

/-- What a step in `s` changes: a `worker_mutex_lock` or `worker_mutex_unlock` that returns `0`, and
a new thread, which holds nothing. -/
def note (g : Locks) (s : State) (l : Label) : Locks :=
  match locking s l.op, l.op with
  | some m, _ => if l.reply = .code 0 then g.set m s.cpu.who true else g
  | none, .unlock m => if l.reply = .code 0 then g.set m s.cpu.who false else g
  | none, .create u _ => { g with held := fun m => update (g.held m) u false }
  | none, _ => g

/-- What the main thread holds at the first `worker_create`. -/
def start (g : Locks) (s : State) : Locks := { g with early := fun m => g.held m s.cpu.who }

/-- What a step of the program changes. -/
def after (g : Locks) (p : Process) (l : Label) : Locks :=
  (if p.started = false ∧ l.op.creates = true then g.start p.lib else g).note p.lib l

end Locks

/-- The program, with the locks its threads hold. -/
def lockSystem (pol : Policy) (Fresh : Tcb → Prop) : System (Process × Locks) Label where
  init x := (process pol Fresh).init x.1 ∧ x.2 = .empty
  step x l x' := (process pol Fresh).step x.1 l x'.1 ∧ x'.2 = x.2.after x.1 l

/-! ### The condition and the property -/

/-- The step initialises no mutex that is locked, and if it enters the scheduler, then either a
thread can be dispatched there or the main thread, blocked, is itself `running_tcb`. -/
structure StaysOwn (pol : Policy) (s : State) (op : Op) : Prop where
  mutexInit : ∀ m, op = .mutexInit m → (s.mutex m).locked = false
  entry : ∀ s₁ why, act pol s op = some (s₁, .enter why) →
    PutsBack s₁ ∨ QueueNonempty pol s₁ ∨
      s₁.runningTcb = some s₁.mainTcb ∧ s₁.stateOf s₁.mainTcb ≠ .terminated

/-- The runs whose steps meet it. -/
def lockRuns (pol : Policy) (Fresh : Tcb → Prop) : System (Process × Locks) Label :=
  (lockSystem pol Fresh).restrict fun x l => StaysOwn pol x.1.lib l.op

/-- `worker_mutex_unlock(m)` returns `0`, clears the flag, and if a thread waits, makes the head
of the wait queue READY and queues it. -/
def Unlocks (pol : Policy) (s : State) (m : MutexPtr) : Prop :=
  ∃ s₁, act pol s (.unlock m) = some (s₁, .ret (.code 0)) ∧ (s₁.mutex m).locked = false ∧
    ∀ w rest, (s.mutex m).waitQueue = w :: rest →
      (s₁.mutex m).waitQueue = rest ∧ (s₁.tcb w).state = .ready ∧
        queued pol s₁ = queued pol s + {w}

/-- The run queue takes the thread. -/
def Takes (pol : Policy) (s : State) (t : TcbPtr) : Prop :=
  match pol with
  | .psjf => s.psjfHeap.size < maxThreads
  | .mlfq => (s.tcb t).priority < maxMlfqLevels
  | .cfs => s.cfsHeap.size < maxThreads
  | .rr => True

/-- The run queue takes the head of the wait queue. -/
def TakesHead (pol : Policy) (s : State) (m : MutexPtr) : Prop :=
  ∀ w rest, (s.mutex m).waitQueue = w :: rest → Takes pol s w

/-! ### What a call does to the mutexes -/

/-- The flags and the owners. -/
def SameOwners (s s' : State) : Prop :=
  ∀ m, (s'.mutex m).locked = (s.mutex m).locked ∧ (s'.mutex m).ownerTcb = (s.mutex m).ownerTcb

/-- What a call does to the mutexes, by how it goes on. -/
inductive MutexChange (s : State) (op : Op) (s' : State) : After → Prop
  | acquired {m} (hop : Locks.locking s op = some m) (hfree : (s.mutex m).locked = false)
      (h : s'.mutex = update s.mutex m { s.mutex m with locked := true, ownerTcb := s.runningTcb }) :
      MutexChange s op s' (.ret (.code 0))
  | released {m mu} (hop : op = .unlock m) (howner : (s.mutex m).ownerTcb = s.runningTcb)
      (hmu : mu.locked = false) (h : s'.mutex = update s.mutex m mu) :
      MutexChange s op s' (.ret (.code 0))
  | init {m} (hop : op = .mutexInit m) (h : s'.mutex = update s.mutex m .init) :
      MutexChange s op s' (.ret (.code 0))
  | same {after} (h : SameOwners s s')
      (hret : after = .ret (.code 0) → Locks.locking s op = none ∧ ∀ m, op ≠ .unlock m) :
      MutexChange s op s' after

/-- What a call does, as far as the locks are concerned. -/
structure Performed (s : State) (op : Op) (s' : State) (after : After) : Prop where
  mutex : MutexChange s op s' after
  /-- A context that is stored is that of `running_tcb`, or of a new thread. -/
  context : ∀ t, (s'.context t).who = (s.context t).who ∨
    s.runningTcb = some t ∧ (s'.context t).who = s.cpu.who ∨ (s'.context t).who = t
  who : s'.cpu.who = s.cpu.who
  runningTcb : s'.runningTcb = s.runningTcb
  mainTcb : s'.mainTcb = s.mainTcb

section

variable {pol : Policy} {Fresh : Tcb → Prop} {s s' s₁ s₂ : State} {op : Op} {after : After}
  {entry now : ℤ} {t u r w : TcbPtr} {m : MutexPtr} {ls : List Label} {p p' : Process}
  {g : Locks} {l : Label}

theorem SameOwners.of_eq (h : s'.mutex = s.mutex) : SameOwners s s' := fun m => by
  rw [h]
  exact ⟨rfl, rfl⟩

/-- A call that stores no context. -/
theorem performed_of_eq (hm : MutexChange s op s' after) (hctx : s'.context = s.context)
    (hwho : s'.cpu.who = s.cpu.who) (hrun : s'.runningTcb = s.runningTcb)
    (hmain : s'.mainTcb = s.mainTcb) : Performed s op s' after :=
  ⟨hm, fun t => .inl (by rw [hctx]), hwho, hrun, hmain⟩

/-- A call that leaves the CPU. -/
theorem performed_save {point : Point} {why : Leave} (hm : SameOwners s s₁)
    (hr : s.runningTcb = some r) (hctx : s₁.context = s.context) (hcpu : s₁.cpu.who = s.cpu.who)
    (hrun : s₁.runningTcb = s.runningTcb) (hmain : s₁.mainTcb = s.mainTcb) :
    Performed s op (s₁.save r point) (.enter why) := by
  refine ⟨.same hm (by simp), fun t => ?_, hcpu, hrun, hmain⟩
  simp only [State.save, update_apply, hctx]
  split
  · next htr => exact .inr (.inl ⟨htr ▸ hr, hcpu⟩)
  · exact .inl rfl

theorem lockLoop_performed (hop : Locks.locking s op = some m)
    (he : lockLoop s m = some (s₁, after)) : Performed s op s₁ after := by
  rw [lockLoop] at he
  dsimp only at he
  split at he
  · split at he
    · exact absurd he (by simp)
    · next r hr =>
      obtain ⟨rfl, rfl⟩ := Prod.mk.inj (Option.some.inj he)
      split
      · refine performed_save (fun m' => ?_) hr rfl rfl rfl rfl
        simp only [State.setMutex, update_apply]
        split
        · next hm => rw [hm]; exact ⟨rfl, rfl⟩
        · exact ⟨rfl, rfl⟩
      · exact performed_save (.of_eq rfl) hr rfl rfl rfl rfl
  · next hfree =>
    obtain ⟨rfl, rfl⟩ := Prod.mk.inj (Option.some.inj he)
    exact performed_of_eq (.acquired hop (by simpa using hfree) rfl) rfl rfl rfl rfl

theorem Performed.of_cpu {c : Code} (hc : c.who = s.cpu.who)
    (h : Performed { s with cpu := c } (.lock m) s₁ after) (hop : Locks.locking s op = some m) :
    Performed s op s₁ after := by
  refine ⟨?_, fun t => ?_, h.who.trans hc, h.runningTcb, h.mainTcb⟩
  · cases h.mutex with
    | acquired hop' hfree hm =>
      obtain rfl := Option.some.inj hop'
      exact .acquired hop hfree hm
    | released hop' => exact absurd hop' (by simp)
    | init hop' => exact absurd hop' (by simp)
    | same hm hret => exact .same hm fun hr => absurd (hret hr).1 (by simp [Locks.locking])
  · rcases h.context t with hctx | ⟨hr, hctx⟩ | hctx
    · exact .inl hctx
    · exact .inr (.inl ⟨hr, hctx.trans hc⟩)
    · exact .inr (.inr hctx)

theorem addToScheduler_owners (h : addToScheduler pol s t = some s₁) :
    s₁.mutex = s.mutex ∧ s₁.context = s.context ∧ s₁.cpu = s.cpu ∧
      s₁.runningTcb = s.runningTcb ∧ s₁.mainTcb = s.mainTcb := by
  obtain ⟨⟨rr, psjf, mlfq, cfs, rfl⟩, -⟩ := addToScheduler_spec h
  exact ⟨rfl, rfl, rfl, rfl, rfl⟩

theorem exit_performed {v : Value} (he : exit pol s v = some (s₁, after)) :
    Performed s (.exit v) s₁ after := by
  rw [exit] at he
  split at he
  · exact absurd he (by simp)
  next r hr =>
  dsimp only at he
  split at he
  · obtain ⟨rfl, rfl⟩ := Prod.mk.inj (Option.some.inj he)
    exact performed_save (.of_eq rfl) hr rfl rfl rfl rfl
  · obtain ⟨s₂, hadd, heq⟩ := Option.map_eq_some_iff.mp he
    obtain ⟨rfl, rfl⟩ := Prod.mk.inj heq
    obtain ⟨hm, hctx, hcpu, hrun, hmain⟩ := addToScheduler_owners hadd
    exact performed_save (.of_eq hm) hr hctx (congrArg Code.who hcpu) hrun hmain

theorem join_performed {thread : ℕ} (he : join s thread = some (s₁, after)) :
    Performed s (.join thread) s₁ after := by
  have hsame : ∀ s' after, s'.mutex = s.mutex → MutexChange s (.join thread) s' after :=
    fun s' after hm => .same (.of_eq hm) fun _ => ⟨rfl, by simp⟩
  rw [join] at he
  split at he
  · obtain ⟨rfl, rfl⟩ := Prod.mk.inj (Option.some.inj he)
    exact performed_of_eq (hsame _ _ rfl) rfl rfl rfl rfl
  split at he
  · exact absurd he (by simp)
  next r hr =>
  dsimp only at he
  split_ifs at he <;> obtain ⟨rfl, rfl⟩ := Prod.mk.inj (Option.some.inj he)
  · exact performed_of_eq (hsame _ _ rfl) rfl rfl rfl rfl
  · exact performed_of_eq (hsame _ _ rfl) rfl rfl rfl rfl
  · exact performed_of_eq (hsame _ _ rfl) rfl rfl rfl rfl
  · exact performed_save (.of_eq rfl) hr rfl rfl rfl rfl

theorem unlock_performed (he : unlock pol s m = some (s₁, after)) :
    Performed s (.unlock m) s₁ after := by
  rw [unlock] at he
  dsimp only at he
  split at he
  · obtain ⟨rfl, rfl⟩ := Prod.mk.inj (Option.some.inj he)
    exact performed_of_eq (.same (.of_eq rfl) (by simp)) rfl rfl rfl rfl
  next howner =>
  rw [not_not] at howner
  split at he
  · obtain ⟨rfl, rfl⟩ := Prod.mk.inj (Option.some.inj he)
    exact performed_of_eq (.released rfl howner rfl rfl) rfl rfl rfl rfl
  · obtain ⟨s₂, hadd, heq⟩ := Option.map_eq_some_iff.mp he
    obtain ⟨rfl, rfl⟩ := Prod.mk.inj heq
    obtain ⟨hm, hctx, hcpu, hrun, hmain⟩ := addToScheduler_owners hadd
    exact performed_of_eq (.released rfl howner rfl hm) hctx (congrArg Code.who hcpu) hrun hmain

theorem create_performed {fresh : Tcb} (he : create pol s u fresh = some (s₁, after)) :
    Performed s (.create u fresh) s₁ after ∧ (s₁.context u).who = u := by
  rw [create] at he
  split at he
  · obtain ⟨s₂, hadd, heq⟩ := Option.map_eq_some_iff.mp he
    obtain ⟨rfl, rfl⟩ := Prod.mk.inj heq
    obtain ⟨hm, hctx, hcpu, hrun, hmain⟩ := addToScheduler_owners hadd
    refine ⟨⟨.same (.of_eq hm) (by simp), fun t => ?_, congrArg Code.who hcpu, hrun, hmain⟩, ?_⟩
    · simp only [hctx, update_apply]
      split
      · next htu => exact .inr (.inr htu.symm)
      · exact .inl rfl
    · simp only [hctx, update_self]
  · exact absurd he (by simp)

/-- **What a call does to the locks.** -/
theorem act_performed (he : act pol s op = some (s₁, after)) : Performed s op s₁ after := by
  -- the rest of an interrupted call: only that of `worker_mutex_lock` touches a mutex
  by_cases hop : op = .resume
  · subst hop
    have he := act_resume he
    rw [resume] at he
    split at he
    · exact absurd he (by simp)
    · next m hp =>
      refine .of_cpu (c := ⟨s.cpu.who, .user⟩) rfl (lockLoop_performed rfl he) ?_
      rw [Locks.locking, hp]
    · obtain ⟨rfl, rfl⟩ := Prod.mk.inj (Option.some.inj he)
      exact performed_of_eq (.same (.of_eq rfl) (by simp)) rfl rfl rfl rfl
    · obtain ⟨rfl, rfl⟩ := Prod.mk.inj (Option.some.inj he)
      exact performed_of_eq (.same (.of_eq rfl) (by simp)) rfl rfl rfl rfl
  obtain ⟨-, he⟩ := act_call hop he
  cases op with
  | resume => exact absurd rfl hop
  | tick =>
    rw [call] at he
    split at he <;> obtain ⟨rfl, rfl⟩ := Prod.mk.inj (Option.some.inj he)
    · exact performed_of_eq (.same (.of_eq rfl) (by simp)) rfl rfl rfl rfl
    · exact performed_save (.of_eq rfl) ‹_› rfl rfl rfl rfl
  | yield =>
    rw [call] at he
    split at he <;> obtain ⟨rfl, rfl⟩ := Prod.mk.inj (Option.some.inj he)
    · exact performed_of_eq (.same (.of_eq rfl) (by simp)) rfl rfl rfl rfl
    · exact performed_save (.of_eq rfl) ‹_› rfl rfl rfl rfl
  | exit v => exact exit_performed he
  | join thread => exact join_performed he
  | lock m => exact lockLoop_performed rfl he
  | unlock m => exact unlock_performed he
  -- the mutex is set up afresh, whatever it held
  | mutexInit m =>
    obtain ⟨rfl, rfl⟩ := Prod.mk.inj (Option.some.inj he)
    exact performed_of_eq (.init rfl rfl) rfl rfl rfl rfl
  | mutexDestroy m =>
    obtain ⟨rfl, rfl⟩ := Prod.mk.inj (Option.some.inj he)
    exact performed_of_eq (.same (.of_eq rfl) fun _ => ⟨rfl, by simp⟩) rfl rfl rfl rfl
  | create u fresh => exact (create_performed he).1
  | createFails stack =>
    rw [call, createFails] at he
    split_ifs at he <;> obtain ⟨rfl, rfl⟩ := Prod.mk.inj (Option.some.inj he) <;>
      exact performed_of_eq (.same (.of_eq rfl) (by simp)) rfl rfl rfl rfl

/-- Without a `running_tcb` no call comes to its `swapcontext`. -/
theorem act_ne_enter {why : Leave} (hr : s.runningTcb = none) :
    act pol s op ≠ some (s₁, .enter why) := by
  intro he
  -- a held mutex without `running_tcb` is a read through `NULL`
  have hlock : ∀ s : State, s.runningTcb = none → ∀ m, lockLoop s m ≠ some (s₁, .enter why) := by
    intro s hr m he
    rw [lockLoop] at he
    dsimp only at he
    split at he
    · rw [hr] at he
      exact absurd he (by simp)
    · exact absurd (congrArg Prod.snd (Option.some.inj he)) (by simp)
  have hwhy := act_leaves he
  by_cases hop : op = .resume
  · subst hop
    have he := act_resume he
    rw [resume] at he
    split at he
    · exact absurd he (by simp)
    · exact hlock _ (by exact hr) _ he
    · exact absurd (congrArg Prod.snd (Option.some.inj he)) (by simp)
    · exact absurd (congrArg Prod.snd (Option.some.inj he)) (by simp)
  obtain ⟨-, he⟩ := act_call hop he
  cases op with
  | resume => exact absurd rfl hop
  | tick | yield =>
    rw [call, hr] at he
    exact absurd (congrArg Prod.snd (Option.some.inj he)) (by simp)
  | exit v =>
    rw [call, exit, hr] at he
    exact absurd he (by simp)
  | join thread =>
    rw [call, join, hr] at he
    split at he
    · exact absurd (congrArg Prod.snd (Option.some.inj he)) (by simp)
    · exact absurd he (by simp)
  | lock m => exact hlock s hr m he
  | unlock m => exact hwhy.elim
  | mutexInit m => exact hwhy.elim
  | mutexDestroy m => exact hwhy.elim
  | create u fresh => exact hwhy.elim
  | createFails stack => exact hwhy.elim

/-! ### The invariant -/

/-- Who is on the CPU, and who owns the mutexes. -/
structure Owned (p : Process) (g : Locks) : Prop where
  who : ∀ t, (p.lib.context t).who = t
  running : p.lib.runningTcb = if p.started then some p.lib.cpu.who else none
  /-- Before the first `worker_create` there is only the main thread. -/
  single : p.started = false → p.lib.cpu.who = p.lib.mainTcb ∧
    ∀ m t, g.held m t = true → t = p.lib.mainTcb
  held : ∀ m t, g.held m t = true → (p.lib.mutex m).locked = true ∧
    (g.early m = true ∨ (p.lib.mutex m).ownerTcb = if p.started then some t else none)
  early : ∀ m, g.early m = true → p.started = true ∧ (p.lib.mutex m).locked = true ∧
    (p.lib.mutex m).ownerTcb = none

/-- A call of `schedule` with a thread to dispatch does not fall back. -/
theorem schedule_ne_none (hr : s.runningTcb = some r) (h : PutsBack s ∨ QueueNonempty pol s)
    {result : Option TcbPtr} (hs : schedule pol s entry now = some (s', result)) :
    result ≠ none := by
  -- under PSJF and CFS an empty heap gives no thread at all
  by_cases hheap : pol = .psjf ∨ pol = .cfs
  · rcases hheap with rfl | rfl
    · exact schedule_psjf_ne_none hs
    · exact schedule_cfs_ne_none hs
  rcases schedule_spec hr hs with ⟨n, rfl, -⟩ | ⟨-, hempty⟩
  · simp
  exfalso
  -- an empty run queue, with the thread that left put back, contradicts both cases
  obtain ⟨hq, hback⟩ := add_eq_zero.mp hempty
  rcases h with ⟨r', hr', hst⟩ | hne
  · obtain rfl := Option.some.inj (hr.symm.trans hr')
    rcases hst with hst | hst
    · rw [State.stateOf, hst] at hback
      exact absurd hback (Multiset.singleton_ne_zero r)
    · rw [State.stateOf, hst, requeued] at hback
      split at hback <;> simp at hback
  · cases pol with
    | psjf => exact hheap (.inl rfl)
    | cfs => exact hheap (.inr rfl)
    | rr => exact hne ((Multiset.coe_eq_zero _).mp hq)
    | mlfq =>
      have hnone := takeLevel_eq_none.mpr hq
      obtain ⟨i, hi, hlevel⟩ := hne
      have hsome := (isSome_takeLevel s.mlfqLevels maxMlfqLevels 0).mpr ⟨i, by omega, by omega, hlevel⟩
      rw [hnone] at hsome
      exact absurd hsome (by simp)

/-- A step, after its call. -/
theorem performed_step {reply : Reply} {sw : Option Switch}
    (hwho : ∀ t, (s.context t).who = t) (hrun : ∀ r, s.runningTcb = some r → r = s.cpu.who)
    (hok : ∀ s₁ why, act pol s op = some (s₁, .enter why) →
      PutsBack s₁ ∨ QueueNonempty pol s₁ ∨
        s₁.runningTcb = some s₁.mainTcb ∧ s₁.stateOf s₁.mainTcb ≠ .terminated)
    (h : step pol s op entry now = some (s', reply, sw)) :
    MutexChange s op s' (.ret reply) ∧ (∀ t, (s'.context t).who = t) ∧ s'.mainTcb = s.mainTcb ∧
      (s'.runningTcb = s.runningTcb ∧ s'.cpu.who = s.cpu.who ∨
        s.runningTcb.isSome ∧ s'.runningTcb = some s'.cpu.who) := by
  -- a context is saved by the thread on the CPU, whose name the invariant says
  have hcontext : ∀ s₁ after, Performed s op s₁ after → ∀ t, (s₁.context t).who = t := by
    intro s₁ after hp t
    rcases hp.context t with hctx | ⟨hr, hctx⟩ | hctx
    · exact hctx.trans (hwho t)
    · exact hctx.trans (hrun t hr).symm
    · exact hctx
  rw [step] at h
  split at h
  · exact absurd h (by simp)
  -- the call returns to its thread
  · next s₁ r he =>
    obtain ⟨rfl, heq⟩ := Prod.mk.inj (Option.some.inj h)
    obtain ⟨rfl, -⟩ := Prod.mk.inj heq
    have hp := act_performed he
    exact ⟨hp.mutex, hcontext _ _ hp, hp.mainTcb, .inl ⟨hp.runningTcb, hp.who⟩⟩
  -- the call leaves the CPU, and `schedule` gives it to the thread it names
  · next s₁ why he =>
    split at h
    · obtain ⟨⟨s₂, next⟩, hsched, heq⟩ := Option.map_eq_some_iff.mp h
      obtain ⟨rfl, hreply⟩ := Prod.mk.inj heq
      obtain ⟨rfl, -⟩ := Prod.mk.inj hreply
      have hp := act_performed he
      obtain ⟨hk, hnext⟩ := schedule_keeps hsched
      have hctx := hcontext _ _ hp
      refine ⟨?_, fun t => ?_, hk.mainTcb.trans hp.mainTcb, .inr ?_⟩
      · cases hp.mutex with
        | same hm _ => exact .same (fun m => by rw [hk.mutex]; exact hm m) (by simp)
      · rw [hk.context]
        exact hctx t
      -- without `running_tcb` the call would not have come to its `swapcontext`
      · obtain ⟨r, hr⟩ : ∃ r, s.runningTcb = some r := by
          cases hr : s.runningTcb with
          | some r => exact ⟨r, rfl⟩
          | none =>
            exact absurd he (act_ne_enter hr)
        have hr₁ : s₁.runningTcb = some r := hp.runningTcb.trans hr
        refine ⟨by rw [hr]; rfl, ?_⟩
        rcases hnext with ⟨n, -, hrun', hcpu⟩ | ⟨hnone, hcpu, hrun'⟩
        · rw [hrun', hcpu, hctx n]
        · rcases hok s₁ why he with hput | hq | ⟨hmain, hst⟩
          · exact absurd hnone (schedule_ne_none hr₁ (.inl hput) hsched)
          · exact absurd hnone (schedule_ne_none hr₁ (.inr hq) hsched)
          · rw [hrun' _ hmain hst, hcpu, hctx]
    · exact absurd h (by simp)

theorem Locks.set_held (g : Locks) (m m' : MutexPtr) (t t' : TcbPtr) (b : Bool) :
    (g.set m t b).held m' t' = if m' = m ∧ t' = t then b else g.held m' t' := by
  simp only [Locks.set, update_apply]
  by_cases hm : m' = m
  · by_cases ht : t' = t <;> simp [hm, ht]
  · simp [hm]

/-- A step that locks and unlocks nothing adds no lock. -/
theorem Locks.note_le (g : Locks) (s : State) (l : Label)
    (h : l.reply = .code 0 → Locks.locking s l.op = none ∧ ∀ m, l.op ≠ .unlock m) :
    (∀ m t, (g.note s l).held m t = true → g.held m t = true) ∧ (g.note s l).early = g.early := by
  unfold Locks.note
  split
  · next m hlock =>
    rw [if_neg]
    · exact ⟨fun _ _ ht => ht, rfl⟩
    · intro hr
      rw [(h hr).1] at hlock
      exact absurd hlock (by simp)
  · next m _ hop =>
    rw [if_neg]
    · exact ⟨fun _ _ ht => ht, rfl⟩
    · exact fun hr => (h hr).2 m hop
  · refine ⟨fun m t ht => ?_, rfl⟩
    simp only [update_apply] at ht
    split at ht
    · exact absurd ht (by simp)
    · exact ht
  · exact ⟨fun _ _ ht => ht, rfl⟩

/-- A step with the library initialised, or before that. -/
theorem Owned.step {started : Bool} (h : Owned ⟨started, s⟩ g) (hok : StaysOwn pol s l.op)
    (hs : Library.step pol s l.op l.entry l.dispatch = some (s', l.reply, l.switch)) :
    Owned ⟨started, s'⟩ (g.note s l) := by
  obtain ⟨hwho, hrunning, hsingle, hheld, hearly⟩ := h
  dsimp only at hwho hrunning hsingle hheld hearly
  have hrun : ∀ r, s.runningTcb = some r → r = s.cpu.who := by
    intro r hr
    rw [hr] at hrunning
    cases started with
    | true => exact Option.some.inj hrunning
    | false => exact absurd hrunning (by simp)
  obtain ⟨hm, hwho', hmain, hcpu⟩ := performed_step hwho hrun hok.entry hs
  have hrunning' : s'.runningTcb = if started then some s'.cpu.who else none := by
    rcases hcpu with ⟨hr, hw⟩ | ⟨hsome, hr⟩
    · rw [hr, hw, hrunning]
    · cases started with
      | true => exact hr
      | false =>
        rw [hrunning] at hsome
        exact absurd hsome (by simp)
  have hsingle' : started = false → s'.cpu.who = s'.mainTcb := by
    intro hst
    rcases hcpu with ⟨-, hw⟩ | ⟨hsome, -⟩
    · rw [hw, hmain, (hsingle hst).1]
    · rw [hrunning, hst] at hsome
      exact absurd hsome (by simp)
  generalize hreply : After.ret l.reply = after at hm
  cases hm with
  | @acquired m hop hfree hmutex =>
    have hnote : g.note s l = g.set m s.cpu.who true := by
      rw [Locks.note, hop]
      exact if_pos (After.ret.inj hreply)
    have hfree' : ∀ t, g.held m t ≠ true := fun t ht => by
      rw [(hheld m t ht).1] at hfree
      exact absurd hfree (by simp)
    rw [hnote]
    refine ⟨hwho', hrunning', fun hst => ⟨hsingle' hst, fun m' t ht => ?_⟩, fun m' t ht => ?_,
      fun m' he => ?_⟩
    · rw [Locks.set_held] at ht
      split at ht
      · next heq => rw [heq.2, hmain, (hsingle hst).1]
      · rw [hmain, (hsingle hst).2 m' t ht]
    · rw [Locks.set_held] at ht
      dsimp only
      rw [hmutex]
      split at ht
      · next heq =>
        rw [heq.1, heq.2, update_self]
        exact ⟨rfl, .inr hrunning⟩
      · have hne : m' ≠ m := fun heq => hfree' t (heq ▸ ht)
        rw [update_of_ne hne]
        exact hheld m' t ht
    · have hne : m' ≠ m := fun heq => by
        have hlocked := (hearly m' he).2.1
        rw [heq, hfree] at hlocked
        exact absurd hlocked (by simp)
      dsimp only
      rw [hmutex, update_of_ne hne]
      exact hearly m' he
  | @released m mu hop howner hmu hmutex =>
    have hnote : g.note s l = g.set m s.cpu.who false := by
      rw [Locks.note, hop]
      exact if_pos (After.ret.inj hreply)
    have hnot : g.early m ≠ true := fun he => by
      obtain ⟨hst, -, hnone⟩ := hearly m he
      rw [howner, hrunning, hst] at hnone
      exact absurd hnone (by simp)
    -- only the thread that unlocks it holds it
    have hother : ∀ t, t ≠ s.cpu.who → g.held m t ≠ true := by
      intro t hne ht
      rcases (hheld m t ht).2 with he | ho
      · exact hnot he
      · rw [howner, hrunning] at ho
        cases started with
        | true => exact hne (Option.some.inj ho).symm
        | false => exact hne (((hsingle rfl).2 m t ht).trans (hsingle rfl).1.symm)
    have hheld' : ∀ m' t, (g.set m s.cpu.who false).held m' t = true →
        m' ≠ m ∧ g.held m' t = true := by
      intro m' t ht
      rw [Locks.set_held] at ht
      split at ht
      · exact absurd ht (by simp)
      · next hno =>
        refine ⟨fun heq => ?_, ht⟩
        subst heq
        exact hother t (fun htw => hno ⟨rfl, htw⟩) ht
    rw [hnote]
    refine ⟨hwho', hrunning', fun hst => ⟨hsingle' hst, fun m' t ht => ?_⟩, fun m' t ht => ?_,
      fun m' he => ?_⟩
    · rw [hmain, (hsingle hst).2 m' t (hheld' m' t ht).2]
    · obtain ⟨hne, ht⟩ := hheld' m' t ht
      dsimp only
      rw [hmutex, update_of_ne hne]
      exact hheld m' t ht
    · have hne : m' ≠ m := fun heq => hnot (heq ▸ he)
      dsimp only
      rw [hmutex, update_of_ne hne]
      exact hearly m' he
  | @init m hop hmutex =>
    have hfree := hok.mutexInit m hop
    have hnote : g.note s l = g := by
      rw [Locks.note, hop]
      rfl
    rw [hnote]
    have hne : ∀ m', (s.mutex m').locked = true → m' ≠ m := fun m' hl heq => by
      rw [heq, hfree] at hl
      exact absurd hl (by simp)
    refine ⟨hwho', hrunning', fun hst => ⟨hsingle' hst, fun m' t ht => ?_⟩, fun m' t ht => ?_,
      fun m' he => ?_⟩
    · rw [hmain, (hsingle hst).2 m' t ht]
    · dsimp only
      rw [hmutex, update_of_ne (hne m' (hheld m' t ht).1)]
      exact hheld m' t ht
    · dsimp only
      rw [hmutex, update_of_ne (hne m' (hearly m' he).2.1)]
      exact hearly m' he
  | same hm hret =>
    obtain ⟨hle, heq⟩ := g.note_le s l fun hr => hret (by rw [← hreply, hr])
    refine ⟨hwho', hrunning', fun hst => ⟨hsingle' hst, fun m t ht => ?_⟩, fun m t ht => ?_,
      fun m he => ?_⟩
    · rw [hmain, (hsingle hst).2 m t (hle m t ht)]
    · dsimp only
      rw [heq, (hm m).1, (hm m).2]
      exact hheld m t (hle m t ht)
    · rw [heq] at he
      dsimp only
      rw [(hm m).1, (hm m).2]
      exact hearly m he

/-- `init_main_thread`: what the main thread holds by then was locked with no owner. -/
theorem Owned.start (h : Owned ⟨false, s⟩ g) (fresh : Tcb) :
    Owned ⟨true, initMainThread s fresh⟩ (g.start s) := by
  obtain ⟨hwho, -, hsingle, hheld, hearly⟩ := h
  obtain ⟨hcpu, honly⟩ := hsingle rfl
  refine ⟨hwho, congrArg some hcpu.symm, fun hst => absurd hst (by simp), fun m t ht => ?_,
    fun m he => ?_⟩
  · have ht' : t = s.cpu.who := (honly m t ht).trans hcpu.symm
    exact ⟨(hheld m t ht).1, .inl (show g.held m s.cpu.who = true from ht' ▸ ht)⟩
  · obtain ⟨hlocked, ho⟩ := hheld m _ he
    refine ⟨rfl, hlocked, ?_⟩
    rcases ho with he' | ho
    · exact absurd (hearly m he').1 (by simp)
    · exact ho

theorem lockRuns_owned {x : Process × Locks} (hr : Run (lockRuns pol Fresh) ls x) :
    Owned x.1 x.2 := by
  refine hr.invariant (I := fun x => Owned x.1 x.2) (fun x hx => ?_) fun x l x' hI hs => ?_
  -- at the start no thread holds a mutex
  · obtain ⟨⟨hst, hstart⟩, hg⟩ := hx
    have hheld : ∀ m t, x.2.held m t ≠ true := fun m t => by rw [hg]; simp [Locks.empty]
    have hearly : ∀ m, x.2.early m ≠ true := fun m => by rw [hg]; simp [Locks.empty]
    refine ⟨fun t => by rw [hstart.context], ?_, fun _ => ⟨by rw [hstart.cpu],
      fun m t ht => absurd ht (hheld m t)⟩, fun m t ht => absurd ht (hheld m t),
      fun m he => absurd he (hearly m)⟩
    rw [hstart.runningTcb, hst]
    rfl
  -- the first `worker_create` sets up `running_tcb`, every later call is a step
  · obtain ⟨p, g⟩ := x
    obtain ⟨p', g'⟩ := x'
    obtain ⟨⟨hp, rfl⟩, hok⟩ := hs
    dsimp only at hI hp hok ⊢
    cases hp with
    | @lib started s _ s' hop h =>
      rw [Locks.after, if_neg]
      · exact hI.step hok h.1
      · rintro ⟨hst, hc⟩
        rcases hop with hop | hop
        · exact absurd (hst.symm.trans hop) (by simp)
        · exact absurd (hc.symm.trans hop) (by simp)
    | @first s _ s' fresh hop _ h =>
      rw [Locks.after, if_pos ⟨rfl, hop⟩]
      refine (hI.start fresh).step ⟨fun m hm => ?_, fun s₁ why he => ?_⟩ h.1
      · rw [hm] at hop
        exact absurd hop (by simp [Op.creates])
      · have hwhy := act_leaves he
        cases hl : l.op <;> rw [hl] at hop hwhy <;> simp [Op.creates, Op.Leaves] at hop hwhy

/-- An unlock by the recorded owner when nobody waits. -/
theorem unlock_nil (howner : (s.mutex m).ownerTcb = s.runningTcb)
    (hw : (s.mutex m).waitQueue = []) :
    unlock pol s m = some (s.setMutex m ⟨false, none, []⟩, .ret (.code 0)) := by
  rw [unlock]
  dsimp only
  rw [if_neg (not_not.mpr howner), hw]

/-- An unlock by the recorded owner that wakes `w`. -/
theorem unlock_cons {w : TcbPtr} {rest : List TcbPtr}
    (howner : (s.mutex m).ownerTcb = s.runningTcb) (hw : (s.mutex m).waitQueue = w :: rest) :
    unlock pol s m
      = (addToScheduler pol ((s.setMutex m ⟨false, none, rest⟩).setState w .ready) w).map
        fun s => (s, .ret (.code 0)) := by
  rw [unlock]
  dsimp only
  rw [if_neg (not_not.mpr howner), hw]

/-- An unlock by the recorded owner. -/
theorem unlocks_iff_takesHead (huser : s.cpu.point = .user)
    (howner : (s.mutex m).ownerTcb = s.runningTcb) : Unlocks pol s m ↔ TakesHead pol s m := by
  have hact : act pol s (.unlock m) = unlock pol s m := by
    rw [act, if_neg (by simp), if_pos huser]
    rfl
  unfold Unlocks TakesHead
  rw [hact]
  cases hw : (s.mutex m).waitQueue with
  -- no waiter: the mutex is clear
  | nil =>
    rw [unlock_nil howner hw]
    refine iff_of_true ⟨_, rfl, ?_, fun w rest h => absurd h (by simp)⟩ fun w rest h => absurd h (by simp)
    simp only [State.setMutex, update_self]
  -- a waiter: it has to find room in the run queue
  | cons w rest =>
    rw [unlock_cons howner hw]
    have htakes : (∀ w' rest', w :: rest = w' :: rest' → Takes pol s w') ↔
        (addToScheduler pol ((s.setMutex m ⟨false, none, rest⟩).setState w .ready) w).isSome := by
      have hfirst : (∀ w' rest', w :: rest = w' :: rest' → Takes pol s w') ↔ Takes pol s w :=
        ⟨fun h => h w rest rfl, fun h w' rest' heq => (List.cons.inj heq).1 ▸ h⟩
      rw [hfirst, isSome_addToScheduler]
      cases pol with
      | mlfq =>
        dsimp only [Takes]
        simp only [State.setState, State.setTcb, State.setMutex, update_self]
      | psjf => exact Iff.rfl
      | cfs => exact Iff.rfl
      | rr => exact Iff.rfl
    rw [htakes]
    constructor
    · rintro ⟨s₁, h, -⟩
      obtain ⟨s₂, hadd, -⟩ := Option.map_eq_some_iff.mp h
      exact Option.isSome_iff_exists.mpr ⟨s₂, hadd⟩
    · intro h
      obtain ⟨s₂, hadd⟩ := Option.isSome_iff_exists.mp h
      obtain ⟨⟨rr, psjf, mlfq, cfs, heq⟩, hq⟩ := addToScheduler_spec hadd
      refine ⟨s₂, by rw [hadd]; rfl, ?_, fun w' rest' hcons => ?_⟩
      · rw [heq]
        simp only [State.setState, State.setTcb, State.setMutex, update_self]
      · obtain ⟨rfl, rfl⟩ := List.cons.inj hcons
        refine ⟨?_, ?_, hq.trans ?_⟩
        · rw [heq]
          simp only [State.setState, State.setTcb, State.setMutex, update_self]
        · rw [heq]
          simp only [State.setState, State.setTcb, update_self]
        · cases pol <;> rfl

/-- **The locker can unlock exactly what it has not locked before the first `worker_create`**, as
long as the run queue takes the thread it wakes: in every run of the program that does not fall
back to the main thread behind the back of `running_tcb`, and initialises no locked mutex. -/
theorem locker_unlocks_iff {x : Process × Locks} (hr : Run (lockRuns pol Fresh) ls x)
    (hheld : x.2.held m x.1.lib.cpu.who = true) (huser : x.1.lib.cpu.point = .user) :
    Unlocks pol x.1.lib m ↔ x.2.early m = false ∧ TakesHead pol x.1.lib m := by
  obtain ⟨-, hrunning, -, hown, hearly⟩ := lockRuns_owned hr
  rcases (hown m _ hheld).2 with he | howner
  · obtain ⟨hst, -, hnone⟩ := hearly m he
    refine iff_of_false ?_ fun h => absurd (he.symm.trans h.1) (by simp)
    rintro ⟨s₁, hact, -⟩
    rw [act, if_neg (by simp), if_pos huser, call, unlock] at hact
    dsimp only at hact
    rw [hst] at hrunning
    rw [if_pos (by rw [hnone, hrunning]; simp)] at hact
    exact absurd (congrArg Prod.snd (Option.some.inj hact)) (by simp)
  · have hnot : x.2.early m = false := by
      rw [← Bool.not_eq_true]
      intro he
      obtain ⟨hst, -, hnone⟩ := hearly m he
      rw [hst, hnone] at howner
      exact absurd howner (by simp)
    rw [and_iff_right hnot]
    exact unlocks_iff_takesHead huser (howner.trans hrunning.symm)

end

/-! ### Two programs -/

/-- The start of the program on a heap of zeros, with the block `0` for the main thread. -/
def State.start : State :=
  { State.first with tcb := fun _ => Tcb.zero, allocated := fun _ => false, runningTcb := none }

theorem State.start_isStart : IsStart State.start where
  allocated _ := rfl
  table := rfl
  threadCount := rfl
  nextThreadId := rfl
  globalTicks := rfl
  mutex _ := rfl
  runningTcb := rfl
  context _ := rfl
  cpu := rfl

/-- A lock that is free. -/
theorem StaysOwn.lock {pol : Policy} {s s₁ : State} {m : MutexPtr}
    (hs : step pol s (.lock m) 0 0 = some (s₁, .code 0, none)) : StaysOwn pol s (.lock m) := by
  refine ⟨fun m' hm => absurd hm (by simp), fun s₂ why he => ?_⟩
  rw [step, he] at hs
  dsimp only at hs
  split at hs
  · obtain ⟨x, -, heq⟩ := Option.map_eq_some_iff.mp hs
    exact absurd (congrArg (fun y => y.2.1) heq) (by simp)
  · exact absurd hs (by simp)

theorem StaysOwn.create {pol : Policy} {s : State} {u : TcbPtr} {fresh : Tcb} :
    StaysOwn pol s (.create u fresh) :=
  ⟨fun m hm => absurd hm (by simp), fun _ _ he => (act_leaves he).elim⟩

theorem run_start : Run (lockRuns .rr (· = Tcb.zero)) [] (⟨false, State.start⟩, .empty) :=
  .start ⟨⟨rfl, State.start_isStart⟩, rfl⟩

/-- The first `worker_create`, and then a lock. -/
theorem locker_unlocks_created : ∃ ls x, Run (lockRuns .rr (· = Tcb.zero)) ls x ∧
    x.2.held 0 x.1.lib.cpu.who = true ∧ Unlocks .rr x.1.lib 0 := by
  obtain ⟨s₁, hcreate, s₂, hlock, hcpu, hcpu₁⟩ : ∃ s₁,
      step .rr (initMainThread .start Tcb.zero) (.create 1 Tcb.zero) 0 0
        = some (s₁, .created 1, none) ∧ ∃ s₂, step .rr s₁ (.lock 0) 0 0 = some (s₂, .code 0, none) ∧
      s₂.cpu = ⟨0, .user⟩ ∧ s₁.cpu = ⟨0, .user⟩ := ⟨_, rfl, _, rfl, rfl, rfl⟩
  have hfirst : (process .rr (· = Tcb.zero)).step ⟨false, State.start⟩
      ⟨.create 1 Tcb.zero, 0, 0, .created 1, none⟩ ⟨true, s₁⟩ :=
    .first rfl rfl ⟨hcreate, by rintro u fresh hop; exact (Op.create.inj hop).2.symm⟩
  have hsecond : (process .rr (· = Tcb.zero)).step ⟨true, s₁⟩ ⟨.lock 0, 0, 0, .code 0, none⟩
      ⟨true, s₂⟩ := .lib (.inl rfl) ⟨hlock, by simp⟩
  let g₁ := Locks.after .empty ⟨false, State.start⟩ ⟨.create 1 Tcb.zero, 0, 0, .created 1, none⟩
  let g₂ := g₁.after ⟨true, s₁⟩ ⟨.lock 0, 0, 0, .code 0, none⟩
  have hr₁ : Run (lockRuns .rr (· = Tcb.zero)) _ (⟨true, s₁⟩, g₁) :=
    run_start.step ⟨⟨hfirst, rfl⟩, StaysOwn.create⟩
  have hr : Run (lockRuns .rr (· = Tcb.zero)) _ (⟨true, s₂⟩, g₂) :=
    hr₁.step ⟨⟨hsecond, rfl⟩, StaysOwn.lock hlock⟩
  have hheld : g₂.held 0 s₂.cpu.who = true := by
    have hset : g₂ = g₁.set 0 s₁.cpu.who true := rfl
    rw [hset, Locks.set_held, hcpu, hcpu₁]
    rfl
  refine ⟨_, _, hr, hheld, (locker_unlocks_iff hr hheld (by rw [hcpu])).mpr ⟨?_, fun _ _ _ => trivial⟩⟩
  rfl

/-- The main thread locks mutex `0` before its first `worker_create`. -/
theorem early_lock_stays : ¬ ∀ (pol : Policy) (Fresh : Tcb → Prop) ls x m,
    Run (lockSystem pol Fresh) ls x → x.2.held m x.1.lib.cpu.who = true →
      x.1.lib.cpu.point = .user → Unlocks pol x.1.lib m := by
  intro h
  obtain ⟨s₁, hlock, s₂, hcreate, hcpu, hfails⟩ : ∃ s₁,
      step .rr .start (.lock 0) 0 0 = some (s₁, .code 0, none) ∧ ∃ s₂,
      step .rr (initMainThread s₁ Tcb.zero) (.create 1 Tcb.zero) 0 0 = some (s₂, .created 1, none) ∧
      s₂.cpu = ⟨0, .user⟩ ∧ (act .rr s₂ (.unlock 0)).map Prod.snd = some (.ret (.code (-1))) :=
    ⟨_, rfl, _, rfl, rfl, rfl⟩
  have hfirst : (process .rr (· = Tcb.zero)).step ⟨false, State.start⟩
      ⟨.lock 0, 0, 0, .code 0, none⟩ ⟨false, s₁⟩ := .lib (.inr rfl) ⟨hlock, by simp⟩
  have hsecond : (process .rr (· = Tcb.zero)).step ⟨false, s₁⟩
      ⟨.create 1 Tcb.zero, 0, 0, .created 1, none⟩ ⟨true, s₂⟩ :=
    .first rfl rfl ⟨hcreate, by rintro u fresh hop; exact (Op.create.inj hop).2.symm⟩
  let g₁ := Locks.after .empty ⟨false, State.start⟩ ⟨.lock 0, 0, 0, .code 0, none⟩
  let g₂ := g₁.after ⟨false, s₁⟩ ⟨.create 1 Tcb.zero, 0, 0, .created 1, none⟩
  have hr₁ : Run (lockRuns .rr (· = Tcb.zero)) _ (⟨false, s₁⟩, g₁) :=
    run_start.step ⟨⟨hfirst, rfl⟩, StaysOwn.lock hlock⟩
  have hr : Run (lockRuns .rr (· = Tcb.zero)) _ (⟨true, s₂⟩, g₂) :=
    hr₁.step ⟨⟨hsecond, rfl⟩, StaysOwn.create⟩
  obtain ⟨s₃, hact, -⟩ := h .rr _ _ _ 0 hr.of_restrict
    (show g₂.held 0 s₂.cpu.who = true by rw [hcpu]; rfl) (by rw [hcpu])
  rw [hact] at hfails
  exact absurd (Option.some.inj hfails) (by simp)

end Library

end ThreadWorker
