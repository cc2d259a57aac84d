import Cs416.Threads.Promotion
import Cs416.Threads.SignalMask

/-!
# The loops of the scheduler

`sched_psjf`, `sched_mlfq`, `sched_cfs` and `sched_rr` look for a ready thread in a `while (1)`.
The signal is masked there (`masked_in_loop`), so an iteration that finds nobody and does not
break leaves everything as it was, and the loop goes on for ever. `SchedLoop` is such a loop
without a bound on its iterations and `Schedules` a call of `schedule` around it; the call ends
when they relate its start to an end. `schedule`, the function the library's steps use, is this
relation (`schedules_iff`).

`SchedulerEnds` is the condition, on the state in which `schedule` is entered, under which the
call ends. With a ready thread it does. Without one it depends on the test behind the search:
`sched_rr` breaks if some thread is BLOCKED and spins otherwise, the other policies break if no
thread is BLOCKED and spin otherwise. `heap_pop` does not say that the heap is empty: it reads
outside the array, so under PSJF and CFS a call without a ready thread has no defined end.
-/

open Function Lts

namespace ThreadWorker

namespace Library

/-! ### The loops without a bound -/

/-- One search for a ready thread: a dispatch, or nobody. -/
def search (pol : Policy) (now : ℤ) (s : State) : Option (Option (State × Option TcbPtr)) :=
  match pol with
  | .psjf => (schedPsjf s).map some
  | .mlfq =>
    some ((takeLevel s.mlfqLevels maxMlfqLevels 0).map fun x =>
      dispatch { s with mlfqLevels := x.2 } x.1)
  | .cfs => (schedCfs s now).map some
  | .rr =>
    match s.rrQueue with
    | next :: rest => some (some (dispatch { s with rrQueue := rest } next))
    | [] => some none

/-- The tests behind a search that found nobody: whether the loop is left for the main thread. -/
def breaks (pol : Policy) (s : State) : Bool :=
  s.threadCount ≤ 1 || (if pol = .rr then s.hasBlockedThreads else !s.hasBlockedThreads)

/-- `while (1)` in the scheduling function of the policy ends. -/
inductive SchedLoop (pol : Policy) (now : ℤ) : State → State × Option TcbPtr → Prop
  | dispatch {s r} (h : search pol now s = some (some r)) : SchedLoop pol now s r
  | main {s} (h : search pol now s = some none) (hb : breaks pol s = true) :
      SchedLoop pol now s (toMain s)
  | again {s r} (h : search pol now s = some none) (hb : breaks pol s = false)
      (rest : SchedLoop pol now s r) : SchedLoop pol now s r

/-- What `sched_mlfq` does before its loop: it goes back to a thread that has not used up its
slice, or on to the loop. The other policies have nothing there. -/
def beforeLoop (pol : Policy) (s : State) : Option (State ⊕ State × Option TcbPtr) :=
  match pol with
  | .mlfq =>
    match s.runningTcb with
    | none => some (.inl s)
    | some r =>
      let t := s.tcb r
      match t.state with
      | .running =>
        if t.timeUsed ≥ t.timeSlice then
          let priority := if t.priority < maxMlfqLevels - 1 then t.priority + 1 else t.priority
          (addToScheduler .mlfq (s.setTcb r
            { t with
              priority := priority
              timeSlice := 2 ^ priority
              timeUsed := 0
              state := .ready }) r).map .inl
        else some (.inr ({ s with cpu := s.context r }, some r))
      | .ready => (addToScheduler .mlfq s r).map .inl
      | .terminated => some (.inl { s with runningTcb := none })
      | .blocked => some (.inl s)
  | _ => some (.inl s)

/-- A call of `schedule` ends. -/
inductive Schedules (pol : Policy) (s : State) (entry now : ℤ) : State × Option TcbPtr → Prop
  | loop {s₁ s₂ r} (hl : leave pol s entry = some s₁) (hb : beforeLoop pol s₁ = some (.inl s₂))
      (h : SchedLoop pol now s₂ r) : Schedules pol s entry now r
  | resumed {s₁ r} (hl : leave pol s entry = some s₁) (hb : beforeLoop pol s₁ = some (.inr r)) :
      Schedules pol s entry now r

/-- The loop was left by a dispatch, or for the context of the main thread. -/
def Left (r : State × Option TcbPtr) : Prop :=
  (∃ n, r.2 = some n ∧ r.1.runningTcb = some n) ∨
    r.2 = none ∧ r.1.cpu = r.1.context r.1.mainTcb

/-! ### When a call ends -/

/-- The thread that left the CPU goes back into the run queue. -/
def PutsBack (s : State) : Prop :=
  ∃ r, s.runningTcb = some r ∧ ((s.tcb r).state = .running ∨ (s.tcb r).state = .ready)

/-- The run queue has a thread. -/
def QueueNonempty (pol : Policy) (s : State) : Prop :=
  match pol with
  | .psjf => 0 < s.psjfHeap.size
  | .mlfq => ∃ i < maxMlfqLevels, s.mlfqLevels i ≠ []
  | .cfs => 0 < s.cfsHeap.size
  | .rr => s.rrQueue ≠ []

/-- The run queue takes the thread that goes back. -/
def HasRoom (pol : Policy) (s : State) : Prop :=
  match pol with
  | .psjf => s.psjfHeap.size < maxThreads
  | .mlfq => ∀ r, s.runningTcb = some r → (s.tcb r).priority < maxMlfqLevels
  | .cfs => s.cfsHeap.size < maxThreads
  | .rr => True

/-- The condition under which a call of `schedule` in this state ends. -/
structure SchedulerEnds (pol : Policy) (s : State) : Prop where
  room : PutsBack s → HasRoom pol s
  /-- A promotion that is due has nothing to promote. -/
  promotion : pol = .mlfq → ∀ r, s.runningTcb = some r → (s.tcb r).state = .running →
    (s.globalTicks + 1) % sPeriod = 0 → LowerEmpty s
  /-- `sched_cfs` reads `running_tcb`. -/
  current : pol = .cfs → ∃ r, s.runningTcb = some r ∧ (s.tcb r).state ≠ .terminated
  /-- Some thread is ready, or the loop breaks without one. -/
  ready : PutsBack s ∨ QueueNonempty pol s ∨
    ((pol = .rr ∨ pol = .mlfq) ∧ breaks pol s = true)

section

variable {pol : Policy} {s s₁ s₂ : State} {entry now : ℤ} {x : State × Option TcbPtr} {r : TcbPtr}

/-! ### The bounded scheduler is the unbounded one -/

theorem breaks_mlfq : breaks .mlfq s = (decide (s.threadCount ≤ 1) || !s.hasBlockedThreads) := rfl

theorem breaks_rr : breaks .rr s = (decide (s.threadCount ≤ 1) || s.hasBlockedThreads) := rfl

/-- An iteration that goes on repeats itself, so a loop that ends does so in its first. -/
theorem schedLoop_iff : SchedLoop pol now s x ↔
    search pol now s = some (some x) ∨
      search pol now s = some none ∧ breaks pol s = true ∧ x = toMain s := by
  constructor
  · intro h
    induction h with
    | dispatch h => exact .inl h
    | main h hb => exact .inr ⟨h, hb, rfl⟩
    | again _ _ _ ih => exact ih
  · rintro (h | ⟨h, hb, rfl⟩)
    · exact .dispatch h
    · exact .main h hb

theorem schedLoop_mlfq_iff : SchedLoop .mlfq now s x ↔ mlfqLoop s = some x := by
  rw [schedLoop_iff, search, mlfqLoop, breaks_mlfq]
  cases takeLevel s.mlfqLevels maxMlfqLevels 0 with
  | some y => simp
  | none =>
    simp only [Option.map_none, Option.some.injEq, reduceCtorEq, false_or, true_and,
      Bool.or_eq_true, decide_eq_true_eq, Bool.not_eq_true']
    split_ifs with hc hb
    · exact ⟨fun h => congrArg some h.2.symm, fun h => ⟨.inl hc, (Option.some.inj h).symm⟩⟩
    · exact ⟨fun h => absurd h.1 (by simp [hc, hb]), fun h => absurd h (by simp)⟩
    · exact ⟨fun h => congrArg some h.2.symm,
        fun h => ⟨.inr (Bool.eq_false_iff.mpr hb), (Option.some.inj h).symm⟩⟩

theorem schedLoop_rr_iff : SchedLoop .rr now s x ↔ schedRr s = some x := by
  rw [schedLoop_iff, search, schedRr, breaks_rr]
  cases s.rrQueue with
  | cons n rest => simp
  | nil =>
    simp only [Option.some.injEq, reduceCtorEq, false_or, true_and, Bool.or_eq_true,
      decide_eq_true_eq]
    split_ifs with hc hb
    · exact ⟨fun h => congrArg some h.2.symm, fun h => ⟨.inl hc, (Option.some.inj h).symm⟩⟩
    · exact ⟨fun h => congrArg some h.2.symm, fun h => ⟨.inr hb, (Option.some.inj h).symm⟩⟩
    · exact ⟨fun h => absurd h.1 (by simp [hc, hb]), fun h => absurd h (by simp)⟩

/-- A search in a heap finds somebody or has no result. -/
theorem schedLoop_of_map (pol : Policy) {f : Option (State × Option TcbPtr)} (hf : search pol now s = f.map some) :
    SchedLoop pol now s x ↔ f = some x := by
  rw [schedLoop_iff, hf]
  cases f <;> simp

/-- `sched_mlfq` goes on to its loop with the thread it has put back. -/
theorem loop_of_map {o : Option State} {put : Option (State ⊕ State × Option TcbPtr)}
    (hput : put = o.map .inl) :
    ((∃ s₂, put = some (.inl s₂) ∧ mlfqLoop s₂ = some x) ∨ put = some (.inr x)) ↔
      o.bind mlfqLoop = some x := by
  rw [hput]
  cases o <;> simp

/-- **The library's scheduler is the unbounded one.** -/
theorem schedules_iff : Schedules pol s entry now x ↔ schedule pol s entry now = some x := by
  -- both are `leave`, then the statements before the loop, then the loop
  have hend : Schedules pol s entry now x ↔ ∃ s₁, leave pol s entry = some s₁ ∧
      ((∃ s₂, beforeLoop pol s₁ = some (.inl s₂) ∧ SchedLoop pol now s₂ x) ∨
        beforeLoop pol s₁ = some (.inr x)) := by
    constructor
    · rintro (⟨hl, hb, h⟩ | ⟨hl, hb⟩)
      · exact ⟨_, hl, .inl ⟨_, hb, h⟩⟩
      · exact ⟨_, hl, .inr hb⟩
    · rintro ⟨s₁, hl, ⟨s₂, hb, h⟩ | hb⟩
      · exact .loop hl hb h
      · exact .resumed hl hb
  rw [hend, schedule, Option.bind_eq_some_iff]
  refine exists_congr fun s₁ => and_congr_right fun _ => ?_
  cases pol with
  | psjf => simp [beforeLoop, schedLoop_of_map .psjf rfl, sched]
  | cfs => simp [beforeLoop, schedLoop_of_map .cfs rfl, sched]
  | rr => simp [beforeLoop, schedLoop_rr_iff, sched]
  | mlfq =>
    simp only [schedLoop_mlfq_iff, sched, beforeLoop, schedMlfq]
    -- of the four ways into `sched_mlfq` only two come to its loop
    cases s₁.runningTcb with
    | none => simp
    | some r =>
      dsimp only
      cases (s₁.tcb r).state with
      | running =>
        dsimp only
        by_cases hused : (s₁.tcb r).timeUsed ≥ (s₁.tcb r).timeSlice
        · rw [if_pos hused, if_pos hused]
          exact loop_of_map rfl
        · rw [if_neg hused, if_neg hused]
          simp
      | ready => exact loop_of_map rfl
      | blocked => simp
      | terminated => simp

/-! ### When it ends -/

theorem isSome_push (cmp : TcbPtr → TcbPtr → ℤ) (h : MinHeap) (t : TcbPtr) :
    (h.push cmp t).isSome ↔ h.size < maxThreads := by
  rw [MinHeap.push]
  split <;> simp_all

theorem isSome_pop (cmp : TcbPtr → TcbPtr → ℤ) (h : MinHeap) : (h.pop cmp).isSome ↔ 0 < h.size := by
  rw [MinHeap.pop]
  split <;> simp_all

theorem isSome_takeLevel (levels : ℕ → List TcbPtr) (n i : ℕ) :
    (takeLevel levels n i).isSome ↔ ∃ j, i ≤ j ∧ j < i + n ∧ levels j ≠ [] := by
  induction n generalizing i with
  | zero =>
    simp only [takeLevel, Option.isSome_none, Bool.false_eq_true, false_iff]
    rintro ⟨j, h1, h2, -⟩
    omega
  | succ n ih =>
    rw [takeLevel]
    cases hi : levels i with
    | nil =>
      rw [ih (i + 1)]
      constructor
      · rintro ⟨j, h1, h2, h3⟩
        exact ⟨j, by omega, by omega, h3⟩
      · rintro ⟨j, h1, h2, h3⟩
        refine ⟨j, ?_, by omega, h3⟩
        by_contra hlt
        obtain rfl : i = j := by omega
        exact h3 hi
    | cons t rest =>
      simp only [Option.isSome_some, true_iff]
      exact ⟨i, le_rfl, by omega, by rw [hi]; simp⟩

theorem isSome_mlfqLoop : (mlfqLoop s).isSome ↔
    (∃ i < maxMlfqLevels, s.mlfqLevels i ≠ []) ∨ breaks .mlfq s = true := by
  have htake := isSome_takeLevel s.mlfqLevels maxMlfqLevels 0
  simp only [Nat.zero_le, true_and, Nat.zero_add] at htake
  rw [mlfqLoop, ← htake, breaks_mlfq]
  cases takeLevel s.mlfqLevels maxMlfqLevels 0 with
  | some y => simp
  | none =>
    dsimp only
    by_cases hc : s.threadCount ≤ 1 <;> cases hb : s.hasBlockedThreads <;> simp [hc]

theorem isSome_schedRr : (schedRr s).isSome ↔ s.rrQueue ≠ [] ∨ breaks .rr s = true := by
  rw [schedRr, breaks_rr]
  cases s.rrQueue with
  | cons n rest => simp
  | nil =>
    dsimp only
    by_cases hc : s.threadCount ≤ 1 <;> cases hb : s.hasBlockedThreads <;> simp [hc]

/-- `schedule` without a thread to put back: `running_tcb` is dropped when it has terminated. -/
def State.dropTerminated (s : State) : State :=
  match s.runningTcb with
  | none => s
  | some r => if (s.tcb r).state = .terminated then { s with runningTcb := none } else s

theorem leave_of_not_putsBack (h : ¬ PutsBack s) : leave pol s entry = some s.dropTerminated := by
  rw [leave, State.dropTerminated]
  cases hr : s.runningTcb with
  | none => rfl
  | some r =>
    dsimp only
    cases hst : (s.tcb r).state with
    | running => exact absurd ⟨r, hr, .inl hst⟩ h
    | ready => exact absurd ⟨r, hr, .inr hst⟩ h
    | blocked => rfl
    | terminated => rfl

theorem dropTerminated_eq :
    s.dropTerminated = s ∨ s.dropTerminated = { s with runningTcb := none } := by
  rw [State.dropTerminated]
  split
  · exact .inl rfl
  · split
    · exact .inr rfl
    · exact .inl rfl

/-- Without a thread to put back, `sched_mlfq` goes straight to its loop. -/
theorem schedMlfq_dropTerminated (h : ¬ PutsBack s) :
    schedMlfq s.dropTerminated = mlfqLoop s.dropTerminated := by
  rw [State.dropTerminated]
  cases hr : s.runningTcb with
  | none => rw [schedMlfq, hr]
  | some r =>
    dsimp only
    split
    · rfl
    · next hst =>
      rw [schedMlfq, hr]
      dsimp only
      cases hst' : (s.tcb r).state with
      | running => exact absurd ⟨r, hr, .inl hst'⟩ h
      | ready => exact absurd ⟨r, hr, .inr hst'⟩ h
      | blocked => rfl
      | terminated => exact absurd hst' hst

/-- A call without a thread to put back. -/
theorem isSome_schedule_of_not_putsBack (h : ¬ PutsBack s) :
    (schedule pol s entry now).isSome ↔ SchedulerEnds pol s := by
  -- with nothing to put back, three of the conditions say nothing
  have hends : SchedulerEnds pol s ↔
      (pol = .cfs → ∃ r, s.runningTcb = some r ∧ (s.tcb r).state ≠ .terminated) ∧
        (QueueNonempty pol s ∨ ((pol = .rr ∨ pol = .mlfq) ∧ breaks pol s = true)) := by
    constructor
    · exact fun hs => ⟨hs.current, hs.ready.resolve_left h⟩
    · exact fun hs => ⟨fun hp => absurd hp h,
        fun _ r hr hst => absurd ⟨r, hr, .inl hst⟩ h, hs.1, .inr hs.2⟩
  -- clearing `running_tcb` changes neither the queues nor the break test
  have hsame : s.dropTerminated.rrQueue = s.rrQueue ∧
      s.dropTerminated.psjfHeap = s.psjfHeap ∧ s.dropTerminated.mlfqLevels = s.mlfqLevels ∧
      ∀ pol, breaks pol s.dropTerminated = breaks pol s := by
    rcases dropTerminated_eq (s := s) with he | he <;> rw [he] <;> exact ⟨rfl, rfl, rfl, fun _ => rfl⟩
  obtain ⟨hrr, hpsjf, hmlfq, hbreaks⟩ := hsame
  rw [schedule, leave_of_not_putsBack h, Option.bind_some, hends]
  cases pol with
  | psjf => simp [sched, schedPsjf, isSome_pop, hpsjf, QueueNonempty]
  | mlfq => simp [sched, schedMlfq_dropTerminated h, isSome_mlfqLoop, hmlfq, hbreaks, QueueNonempty]
  | rr => simp [sched, isSome_schedRr, hrr, hbreaks, QueueNonempty]
  | cfs =>
    -- `sched_cfs` reads `running_tcb`, which `schedule` has cleared for an ended thread
    rw [State.dropTerminated]
    cases hr : s.runningTcb with
    | none => simp [sched, schedCfs, hr]
    | some r =>
      dsimp only
      by_cases hst : (s.tcb r).state = .terminated
      · rw [if_pos hst]
        simp [sched, schedCfs, hst]
      · rw [if_neg hst]
        simp [sched, schedCfs, hr, hst, isSome_pop, QueueNonempty, State.setTcb]

/-- A thread is put back into the run queue. -/
theorem isSome_addToScheduler (pol : Policy) (s : State) (t : TcbPtr) : (addToScheduler pol s t).isSome ↔
    match pol with
    | .psjf => s.psjfHeap.size < maxThreads
    | .mlfq => (s.tcb t).priority < maxMlfqLevels
    | .cfs => s.cfsHeap.size < maxThreads
    | .rr => True := by
  cases pol with
  | psjf => rw [addToScheduler, Option.isSome_map, isSome_push]
  | cfs => rw [addToScheduler, Option.isSome_map, isSome_push]
  | rr => simp [addToScheduler]
  | mlfq =>
    rw [addToScheduler]
    dsimp only
    split <;> simp_all

theorem queueNonempty_addToScheduler {t : TcbPtr} (ha : addToScheduler pol s t = some s₁) :
    QueueNonempty pol s₁ ∧ s₁.runningTcb = s.runningTcb ∧ s₁.tcb = s.tcb := by
  cases pol with
  | psjf =>
    obtain ⟨heap, hp, rfl⟩ := Option.map_eq_some_iff.mp ha
    exact ⟨by rw [QueueNonempty, MinHeap.size_push hp]; exact Nat.succ_pos _, rfl, rfl⟩
  | cfs =>
    obtain ⟨heap, hp, rfl⟩ := Option.map_eq_some_iff.mp ha
    exact ⟨by rw [QueueNonempty, MinHeap.size_push hp]; exact Nat.succ_pos _, rfl, rfl⟩
  | rr =>
    obtain rfl := Option.some.inj ha
    exact ⟨by simp [QueueNonempty], rfl, rfl⟩
  | mlfq =>
    rw [addToScheduler] at ha
    split at ha
    · next hlevel =>
      obtain rfl := Option.some.inj ha
      exact ⟨⟨_, hlevel, by simp⟩, rfl, rfl⟩
    · exact absurd ha (by simp)

/-- With a thread in its queue, a policy other than MLFQ dispatches one. -/
theorem isSome_sched_of_queueNonempty (now : ℤ) (hpol : pol ≠ .mlfq) (hq : QueueNonempty pol s)
    (hr : s.runningTcb = some r) : (sched pol s now).isSome := by
  cases pol with
  | psjf =>
    rw [sched, schedPsjf, Option.isSome_map, isSome_pop]
    exact hq
  | cfs =>
    rw [sched, schedCfs, hr, Option.isSome_map, isSome_pop]
    exact hq
  | rr =>
    rw [sched, isSome_schedRr]
    exact .inl hq
  | mlfq => exact absurd rfl hpol

/-- A policy other than MLFQ puts the thread back as soon as `schedule` is entered. -/
theorem leave_of_putsBack (entry : ℤ) (hpol : pol ≠ .mlfq) (hr : s.runningTcb = some r)
    (hst : (s.tcb r).state = .running ∨ (s.tcb r).state = .ready) :
    ∃ s₁, leave pol s entry = addToScheduler pol s₁ r ∧ s₁.psjfHeap = s.psjfHeap ∧
      s₁.cfsHeap = s.cfsHeap ∧ s₁.runningTcb = some r := by
  rw [leave, hr]
  rcases hst with hst | hst
  · simp only [hst]
    cases pol with
    | psjf => exact ⟨_, rfl, rfl, rfl, hr⟩
    | cfs => exact ⟨_, rfl, rfl, rfl, hr⟩
    | rr => exact ⟨_, rfl, rfl, rfl, hr⟩
    | mlfq => exact absurd rfl hpol
  · simp only [hst]
    exact ⟨_, rfl, rfl, rfl, hr⟩

/-- `sched_mlfq` puts a READY thread back into its level, which then has a thread to dispatch. -/
theorem isSome_schedMlfq_ready (hr : s.runningTcb = some r) (hst : (s.tcb r).state = .ready) :
    (schedMlfq s).isSome ↔ (s.tcb r).priority < maxMlfqLevels := by
  rw [schedMlfq, hr]
  simp only [hst]
  constructor
  · intro h
    obtain ⟨x, hx⟩ := Option.isSome_iff_exists.mp h
    obtain ⟨s₁, hadd, -⟩ := Option.bind_eq_some_iff.mp hx
    exact (isSome_addToScheduler .mlfq s r).mp (Option.isSome_iff_exists.mpr ⟨s₁, hadd⟩)
  · intro h
    obtain ⟨s₁, hadd⟩ := Option.isSome_iff_exists.mp
      ((isSome_addToScheduler .mlfq s r).mpr h)
    rw [hadd, Option.bind_some, isSome_mlfqLoop]
    exact .inl (queueNonempty_addToScheduler hadd).1

/-- A preempted thread is READY under MLFQ, but not yet back in its level. -/
theorem leave_mlfq_running (entry : ℤ) (hr : s.runningTcb = some r) (hst : (s.tcb r).state = .running) :
    ∃ s₁, leave .mlfq s entry
        = (if (s.globalTicks + 1) % sPeriod = 0 then promoteAllThreads s₁ else some s₁) ∧
      s₁.mlfqLevels = s.mlfqLevels ∧ s₁.runningTcb = some r ∧ (s₁.tcb r).state = .ready ∧
      (s₁.tcb r).priority = (s.tcb r).priority := by
  rw [leave, hr]
  simp only [hst]
  refine ⟨_, rfl, rfl, hr, ?_, ?_⟩ <;> simp [State.setTcb, State.setState]

theorem leave_mlfq_ready (entry : ℤ) (hr : s.runningTcb = some r) (hst : (s.tcb r).state = .ready) :
    ∃ s₁, leave .mlfq s entry = addToScheduler .mlfq s₁ r ∧ s₁.runningTcb = some r ∧
      (s₁.tcb r).state = .ready ∧ (s₁.tcb r).priority = (s.tcb r).priority := by
  rw [leave, hr]
  simp only [hst]
  refine ⟨_, rfl, hr, ?_, ?_⟩ <;> simp [State.setTcb]

/-- Under MLFQ a thread that goes back is dispatched or waits behind another one, unless the
promotion that its tick makes due does not end. -/
theorem isSome_schedule_mlfq (hr : s.runningTcb = some r)
    (hst : (s.tcb r).state = .running ∨ (s.tcb r).state = .ready) :
    (schedule .mlfq s entry now).isSome ↔ (s.tcb r).priority < maxMlfqLevels ∧
      ((s.tcb r).state = .running → (s.globalTicks + 1) % sPeriod = 0 → LowerEmpty s) := by
  rw [schedule]
  rcases hst with hst | hst
  · -- preempted: put back by `sched_mlfq`
    obtain ⟨s₁, hleave, hlevels, hr₁, hst₁, hprio⟩ := leave_mlfq_running entry hr hst
    have hsched : (sched .mlfq s₁ now).isSome ↔ (s.tcb r).priority < maxMlfqLevels := by
      rw [sched, isSome_schedMlfq_ready hr₁ hst₁, hprio]
    rw [hleave]
    by_cases hdue : (s.globalTicks + 1) % sPeriod = 0
    · rw [if_pos hdue]
      by_cases hempty : LowerEmpty s
      · have hprom : promoteAllThreads s₁ = some s₁ := by
          rw [promoteAllThreads_eq_some_iff, promoteLoop_iff, LowerEmpty, hlevels]
          exact ⟨rfl, hempty⟩
        rw [hprom, Option.bind_some, hsched]
        exact ⟨fun h => ⟨h, fun _ _ => hempty⟩, fun h => h.1⟩
      · have hprom : promoteAllThreads s₁ = none := by
          rw [promoteAllThreads, hlevels, if_neg]
          exact fun hc => hempty (lowerEmpty_iff.mpr hc)
        rw [hprom]
        exact ⟨fun h => absurd h (by simp), fun h => absurd (h.2 hst hdue) hempty⟩
    · rw [if_neg hdue, Option.bind_some, hsched]
      exact ⟨fun h => ⟨h, fun _ hd => absurd hd hdue⟩, fun h => h.1⟩
  · -- yielded: put back by `schedule`, and once more by `sched_mlfq`
    obtain ⟨s₁, hleave, hr₁, hst₁, hprio⟩ := leave_mlfq_ready entry hr hst
    have hroom := isSome_addToScheduler .mlfq s₁ r
    dsimp only at hroom
    rw [hprio] at hroom
    have hrest : (s.tcb r).state = .running → (s.globalTicks + 1) % sPeriod = 0 → LowerEmpty s :=
      fun hc => absurd (hst.symm.trans hc) (by decide)
    rw [hleave, and_iff_left hrest, ← hroom]
    cases hadd : addToScheduler .mlfq s₁ r with
    | none => simp
    | some s₂ =>
      obtain ⟨-, hr₂, htcb⟩ := queueNonempty_addToScheduler hadd
      rw [Option.bind_some, sched, isSome_schedMlfq_ready (hr₂.trans hr₁) (htcb ▸ hst₁), htcb, hprio,
        ← hroom, hadd]

/-- A call with a thread to put back. -/
theorem isSome_schedule_of_putsBack (h : PutsBack s) :
    (schedule pol s entry now).isSome ↔ SchedulerEnds pol s := by
  obtain ⟨r, hr, hst⟩ := h
  have hput : PutsBack s := ⟨r, hr, hst⟩
  have honly : ∀ r', s.runningTcb = some r' → r' = r :=
    fun r' hr' => Option.some.inj (hr'.symm.trans hr)
  have hlive : (s.tcb r).state ≠ .terminated := by
    rcases hst with hst | hst <;> rw [hst] <;> simp
  -- MLFQ may have to promote before it puts the thread back
  by_cases hpol : pol = .mlfq
  · subst hpol
    rw [isSome_schedule_mlfq hr hst]
    constructor
    · rintro ⟨hroom, hprom⟩
      refine ⟨fun _ r' hr' => honly r' hr' ▸ hroom, fun _ r' hr' => ?_,
        fun hc => absurd hc (by decide), .inl hput⟩
      rw [honly r' hr']
      exact hprom
    · exact fun hs => ⟨hs.room hput r hr, hs.promotion rfl r hr⟩
  · obtain ⟨s₁, hleave, hpsjf, hcfs, hr₁⟩ := leave_of_putsBack entry hpol hr hst
    have hroom : (addToScheduler pol s₁ r).isSome ↔ HasRoom pol s := by
      rw [isSome_addToScheduler]
      cases pol with
      | psjf => rw [hpsjf]; exact Iff.rfl
      | cfs => rw [hcfs]; exact Iff.rfl
      | rr => exact Iff.rfl
      | mlfq => exact absurd rfl hpol
    -- once the thread is back in the queue there is one to dispatch
    have hends : SchedulerEnds pol s ↔ HasRoom pol s :=
      ⟨fun hs => hs.room hput, fun hs => ⟨fun _ => hs, fun hp => absurd hp hpol,
        fun _ => ⟨r, hr, hlive⟩, .inl hput⟩⟩
    rw [hends, ← hroom, schedule, hleave]
    cases hadd : addToScheduler pol s₁ r with
    | none => simp
    | some s₂ =>
      obtain ⟨hq, hr₂, -⟩ := queueNonempty_addToScheduler hadd
      rw [Option.bind_some]
      simp [isSome_sched_of_queueNonempty now hpol hq (hr₂.trans hr₁)]

theorem isSome_schedule (pol : Policy) (s : State) (entry now : ℤ) : (schedule pol s entry now).isSome ↔ SchedulerEnds pol s := by
  by_cases h : PutsBack s
  · exact isSome_schedule_of_putsBack h
  · exact isSome_schedule_of_not_putsBack h

/-! ### How it ends -/

theorem left_of_schedLoop (h : SchedLoop pol now s x) : Left x := by
  induction h with
  -- by the policy: each search ends in a dispatch
  | dispatch h =>
    refine .inl ?_
    cases pol with
    | psjf =>
      obtain ⟨y, hy, he⟩ := Option.map_eq_some_iff.mp h
      obtain ⟨z, -, rfl⟩ := Option.map_eq_some_iff.mp hy
      exact ⟨z.1, by rw [← Option.some.inj he]; rfl, by rw [← Option.some.inj he]; rfl⟩
    | mlfq =>
      obtain ⟨z, -, rfl⟩ := Option.map_eq_some_iff.mp (Option.some.inj h)
      exact ⟨z.1, rfl, rfl⟩
    | cfs =>
      obtain ⟨y, hy, he⟩ := Option.map_eq_some_iff.mp h
      rw [schedCfs] at hy
      split at hy
      · exact absurd hy (by simp)
      · obtain ⟨z, -, rfl⟩ := Option.map_eq_some_iff.mp hy
        exact ⟨z.1, by rw [← Option.some.inj he]; rfl, by rw [← Option.some.inj he]; rfl⟩
    | rr =>
      rw [search] at h
      split at h
      · rename_i n _ _
        exact ⟨n, by rw [← Option.some.inj (Option.some.inj h)]; rfl,
          by rw [← Option.some.inj (Option.some.inj h)]; rfl⟩
      · exact absurd h (by simp)
  | main _ _ => exact .inr ⟨rfl, rfl⟩
  -- an iteration that finds nothing decides nothing
  | again _ _ _ ih => exact ih

theorem left_of_schedules (h : Schedules pol s entry now x) : Left x := by
  cases h with
  | loop _ _ h => exact left_of_schedLoop h
  | resumed hl hb =>
    refine .inl ?_
    cases pol with
    | mlfq =>
      rename_i s₁
      rw [beforeLoop] at hb
      cases hr : s₁.runningTcb with
      | none => simp [hr] at hb
      | some r =>
        simp only [hr] at hb
        split at hb
        · split at hb
          · simp at hb
          · obtain rfl := Sum.inr.inj (Option.some.inj hb)
            exact ⟨r, rfl, rfl⟩
        · simp at hb
        · simp at hb
        · simp at hb
    | psjf => exact absurd hb (by simp [beforeLoop])
    | cfs => exact absurd hb (by simp [beforeLoop])
    | rr => exact absurd hb (by simp [beforeLoop])

/-- **The scheduler leaves its loop** in exactly the entries that meet `SchedulerEnds`, in every
run under each policy, by a dispatch or for the main thread; and in the loop no tick can come
between two iterations. -/
theorem scheduler_leaves_loop (pol : Policy) (Fresh : Tcb → Prop) :
    (∀ ls s, Run (library pol Fresh) ls s → ∀ op s₁ why, act pol s op = some (s₁, .enter why) →
      ∀ entry now, ((∃ x, Schedules pol s₁ entry now x ∧ Left x) ↔ SchedulerEnds pol s₁)) ∧
    ∀ policy ls t, Run (Signals.machine policy) ls t → t.cpu = .sched .loop →
      t.masked = true ∧ Signals.step policy t .tick = none := by
  refine ⟨fun ls s _ op s₁ why _ entry now => ?_,
    fun policy ls t hr hloop => Signals.masked_in_loop policy hr hloop⟩
  rw [← isSome_schedule pol s₁ entry now, Option.isSome_iff_exists]
  constructor
  · rintro ⟨x, hx, -⟩
    exact ⟨x, schedules_iff.mp hx⟩
  · rintro ⟨x, hx⟩
    exact ⟨x, schedules_iff.mpr hx, left_of_schedules (schedules_iff.mpr hx)⟩

end

/-- Two threads end without having been joined, the first one with a mutex locked. -/
def unjoined : List (Op × ℤ × ℤ) :=
  [(.create 1 Tcb.zero, 0, 0), (.create 2 Tcb.zero, 0, 0), (.yield, 0, 0), (.lock 0, 0, 0),
    (.exit 0, 0, 0), (.exit 0, 0, 0)]

/-- The main thread then locks the mutex under RR: nobody is ready, nobody in the table is
BLOCKED, and two threads count as alive. -/
theorem rr_spins : ¬ ∀ (pol : Policy) (Fresh : Tcb → Prop) ls s, Run (library pol Fresh) ls s →
    ∀ op s₁ why, act pol s op = some (s₁, .enter why) →
      ∀ entry now, ∃ x, Schedules pol s₁ entry now x ∧ Left x := by
  intro h
  obtain ⟨ls, s, hperf, s₁, hact, hends⟩ : ∃ ls s,
      performIf (fun _ _ => True) .rr .first unjoined = some (ls, s) ∧
      ∃ s₁, act .rr s (.lock 0) = some (s₁, .enter .blocked) ∧ (schedule .rr s₁ 0 0).isSome = false :=
    ⟨_, _, rfl, _, rfl, by decide +kernel⟩
  have hr : Run (library .rr (· = Tcb.zero)) ls s :=
    (run_first (by simp [unjoined, Op.Uses]) hperf).of_restrict
  obtain ⟨x, hx, -⟩ := h .rr _ ls s hr (.lock 0) s₁ .blocked hact 0 0
  rw [schedules_iff.mp hx] at hends
  exact absurd hends (by simp)

end Library

end ThreadWorker
