import Cs416.Threads.Wakeups

/-!
# Lost wake-ups

A tick between two statements can lose a wake-up (`wakeup_lost`): an unlock that comes between
a failed test-and-set and the wait queue finds nobody to wake, and so does an exit that comes
between the test for TERMINATED and the store into `waiting_thread`.

`Timely` is the condition on the steps of a run under which no wake-up is lost
(`no_lost_wakeup`). It speaks of the state before the four statements that look for a waiter
or a joiner, and of the scheduler's choice. The step lemma `WaitInv.step` rests on what a
statement of a call does to the mutex, the block or the thread the invariants are about
(`Wakeups`), and on frame lemmas for all other statements.
-/

open Function Lts

namespace ThreadWorker

section
variable {mainTcb t : TcbPtr} {sh sh' : Shared} {p : Pc} {next : Next} {m : MutexPtr}

attribute [local grind] Next.pc Next.switches Pc.OnMutex Pc.lockOf Pc.unlockOf Pc.inJoin Pc.inExit
  Pc.mayBlock Pc.blocksSelf

/-- A statement of no call on `m` leaves the mutex alone. -/
theorem exec_offMutex (h : exec mainTcb t sh (some t) p = some (sh', next))
    (hp : ¬ p.OnMutex m) : sh'.mutex m = sh.mutex m ∧ ¬ next.pc.OnMutex m := by
  cases p <;> simp only [exec, Option.bind_some, Option.bind_eq_some_iff] at h <;> grind

/-- A statement changes the state of its own thread, and of the one it makes READY. -/
theorem exec_state (h : exec mainTcb t sh (some t) p = some (sh', next)) {v : TcbPtr}
    (hv : v ≠ t) (hw : ∀ m, p ≠ .readyWaiter m (some v)) (hj : p ≠ .readyJoiner v) :
    (sh'.tcb v).state = (sh.tcb v).state := by
  cases p <;> simp only [exec, Option.bind_some, Option.bind_eq_some_iff] at h <;> grind

/-- No thread but the one on the CPU becomes BLOCKED. -/
theorem exec_blocked (h : exec mainTcb t sh (some t) p = some (sh', next)) {v : TcbPtr}
    (hv : v ≠ t) (hb : (sh'.tcb v).state = .blocked) : (sh.tcb v).state = .blocked := by
  cases p <;> simp only [exec, Option.bind_some, Option.bind_eq_some_iff] at h <;> grind

/-- A thread is BLOCKED after a statement only where it may be. -/
theorem exec_blocks (h : exec mainTcb t sh (some t) p = some (sh', next))
    (hp : (sh.tcb t).state = .blocked → p.blocksSelf = true)
    (hb : (sh'.tcb t).state = .blocked) :
    next.pc.mayBlock = true ∧ (next.switches = false → next.pc.blocksSelf = true) := by
  cases p <;> simp only [exec, Option.bind_some, Option.bind_eq_some_iff] at h <;> grind

theorem exec_enqueueSelf (h : exec mainTcb t sh (some t) p = some (sh', next))
    (hn : next.pc = .enqueueSelf m) : (sh'.tcb t).state = .blocked := by
  cases p <;> simp only [exec, Option.bind_some, Option.bind_eq_some_iff] at h <;> grind

theorem exec_offJoin (h : exec mainTcb t sh (some t) p = some (sh', next))
    (hp : p.inJoin = false) :
    sh'.table = sh.table ∧ sh'.allocated = sh.allocated ∧
      (∀ v, (sh'.tcb v).joined = (sh.tcb v).joined) ∧ next.pc.inJoin = false := by
  cases p <;> simp only [exec, Option.bind_some, Option.bind_eq_some_iff] at h <;> grind

theorem exec_offExit (h : exec mainTcb t sh (some t) p = some (sh', next))
    (hj : p.inJoin = false) (hp : p.inExit = false) :
    (∀ v, (sh'.tcb v).waitingThread = (sh.tcb v).waitingThread) ∧ next.pc.inExit = false := by
  cases p <;> simp only [exec, Option.bind_some, Option.bind_eq_some_iff] at h <;> grind
end

/-- The next statement of `t` does not test for waiters while one is about to register. -/
structure NoWindow (s : State) (t : TcbPtr) : Prop where
  /-- An unlock that finds the flag clear and the wait queue empty finds no thread between its
  failed test-and-set and the wait queue. -/
  unlock : ∀ m, s.pcOf t = .checkQueue m → (s.shared.mutex m).locked = false →
    (s.shared.mutex m).waitQueue = [] → ∀ u, (s.pcOf u).unqueuedOf ≠ some m
  /-- An exit that finds nobody waiting finds no thread between its test for TERMINATED and the
  store into `waiting_thread`. -/
  exit : s.pcOf t = .checkWaiting → (s.shared.tcb t).waitingThread = none →
    ∀ j, (s.pcOf j).unregisteredOf ≠ some t
  /-- An exit wakes a thread that sleeps in the join on it. -/
  joiner : ∀ w, s.pcOf t = .readyJoiner w → s.stateOf w = .blocked ∧ (s.pcOf w).sleepsOf = some t
  /-- No thread passes the test of `joined` while another is between the test and the store. -/
  join : ∀ u, s.pcOf t = .checkJoined u → (s.shared.tcb u).joined = false →
    ∀ j, j ≠ t → s.pcOf j ≠ .markJoined u

/-- The scheduler dispatches ready threads only, and no statement falls into a window. -/
def Timely (s : State) (l : Label) : Prop :=
  DispatchesReady s l ∧ (l = .stmt → ∀ t, s.onCpu = some t → NoWindow s t)

/-- What holds of the waiting threads in a timely run. -/
structure WaitInv (s : State) : Prop where
  state : StateInv s
  lock : ∀ m, LockInv s m
  target : ∀ u, TargetInv s u
  join : ∀ u, JoinInv s u

section
variable {s s' : State} {u t : TcbPtr} {m : MutexPtr}

theorem Pc.inJoin_of_joinOf {p : Pc} (h : p.joinOf = some u) : p.inJoin = true := by
  cases p <;> simp_all [Pc.joinOf, Pc.inJoin]

theorem Pc.inExit_of_exits {p : Pc} (h : p.exits = true) : p.inExit = true := by
  cases p <;> simp_all [Pc.exits, Pc.inExit]

theorem Pc.not_inJoin_of_retryOf {p : Pc} (h : p.retryOf = some m) :
    p.inJoin = false ∧ p.inExit = false := by
  cases p <;> simp_all [Pc.retryOf, Pc.inJoin, Pc.inExit]

theorem Pc.not_onMutex_of_inJoin {p : Pc} (h : p.inJoin = true) : ¬ p.OnMutex m := by
  cases p <;> simp_all [Pc.inJoin, Pc.OnMutex, Pc.lockOf, Pc.unlockOf]

theorem Pc.retryOf_unique {p : Pc} {m' : MutexPtr} (h : p.retryOf = some m')
    (hm : p.OnMutex m) : m' = m := by
  cases p <;> simp_all [Pc.retryOf, Pc.OnMutex, Pc.lockOf, Pc.unlockOf]

attribute [local grind] Pc.inJoin Pc.joinOf Pc.unregisteredOf Pc.sleepsOf
attribute [local grind →] Pc.inJoin_of_joinOf Pc.inExit_of_exits Pc.exits_of_ended
  Pc.joinOf_of_unregisteredOf Pc.joinOf_of_sleepsOf

/-- A step that touches no thread in `worker_join` and neither the block nor the table keeps
the claim on the block. -/
theorem TargetInv.frame (h : TargetInv s u)
    (hjoined : (s'.shared.tcb u).joined = (s.shared.tcb u).joined)
    (htable : s'.shared.table = s.shared.table)
    (halloc : s'.shared.allocated u = s.shared.allocated u)
    (hpc : ∀ j, (s.pcOf j).inJoin = true ∨ (s'.pcOf j).inJoin = true → s'.pcOf j = s.pcOf j) :
    TargetInv s' u := by
  obtain ⟨ha, hf, htab, hm, ho⟩ := h
  refine ⟨?_, ?_, ?_, ?_, ?_⟩
  · grind
  · grind
  · grind
  · grind
  · grind

theorem JoinInv.frame (h : JoinInv s u)
    (hwaiting : (s'.shared.tcb u).waitingThread = (s.shared.tcb u).waitingThread)
    (hpc : ∀ j, ((s.pcOf j).inJoin = true ∨ (s.pcOf j).inExit = true) ∨
      ((s'.pcOf j).inJoin = true ∨ (s'.pcOf j).inExit = true) →
      s'.pcOf j = s.pcOf j ∧ (s'.stateOf j = .blocked ↔ s.stateOf j = .blocked) ∧
        (s'.stateOf j = .terminated ↔ s.stateOf j = .terminated)) :
    JoinInv s' u := by
  obtain ⟨hr, hun, haw, hex⟩ := h
  refine ⟨?_, ?_, ?_, ?_⟩
  · grind
  · grind
  · grind
  · grind
/-- What a statement does to the fields the invariants read, whether or not the thread leaves
the CPU after it. -/
structure AfterStmt (s' : State) (sh : Shared) : Prop where
  mutex : ∀ m, s'.shared.mutex m = sh.mutex m
  table : s'.shared.table = sh.table
  allocated : ∀ v, s'.shared.allocated v = sh.allocated v
  joined : ∀ v, (s'.shared.tcb v).joined = (sh.tcb v).joined
  waiting : ∀ v, (s'.shared.tcb v).waitingThread = (sh.tcb v).waitingThread
  blocked : ∀ v, s'.stateOf v = .blocked ↔ (sh.tcb v).state = .blocked
  terminated : ∀ v, s'.stateOf v = .terminated ↔ (sh.tcb v).state = .terminated

theorem afterStmt {sh : Shared} {b : Bool}
    (h : s'.shared = if b then sh.preempt t else sh) : AfterStmt s' sh := by
  cases b
  · rw [if_neg (by simp)] at h
    subst h
    exact ⟨fun _ => rfl, rfl, fun _ => rfl, fun _ => rfl, fun _ => rfl, fun _ => .rfl,
      fun _ => .rfl⟩
  · rw [if_pos rfl] at h
    refine ⟨?_, ?_, ?_, ?_, ?_, ?_, ?_⟩ <;> grind -ring -linarith -order -ac -lia [State.stateOf]

theorem WaitInv.stmt (h : WaitInv s) {sh : Shared} {next : Next} (hnw : NoWindow s t)
    (hon : s.onCpu = some t)
    (he : exec s.mainTcb t s.shared (some t) (s.pcOf t) = some (sh, next))
    (hafter : AfterStmt s' sh)
    (hpc : ∀ v, s'.pcOf v = if v = t then next.pc else s.pcOf v)
    (hon' : s'.onCpu = if next.switches then none else some t) : WaitInv s' := by
  have hself : s'.pcOf t = next.pc := by rw [hpc, if_pos rfl]
  have hstill : ∀ v, v ≠ t → s'.pcOf v = s.pcOf v := fun v hv => by rw [hpc, if_neg hv]
  -- a thread that is made READY sleeps in the call it made
  have hwoken : ∀ m v, s.pcOf t = .readyWaiter m (some v) → (s.pcOf v).retryOf = some m :=
    fun m v hp => ((h.lock m).queue.woken t v hp).2.1
  have hjoiner : ∀ v, s.pcOf t = .readyJoiner v → (s.pcOf v).sleepsOf = some t :=
    fun v hp => (hnw.joiner v hp).2
  refine ⟨⟨fun v hb => ?_, fun v hv hb => ?_, fun v m hv => ?_⟩, fun m => ?_, fun u => ?_,
    fun u => ?_⟩
  · rw [hafter.blocked] at hb
    by_cases hv : v = t
    · subst hv
      rw [hself]
      exact (exec_blocks he (h.state.onCpu v hon) hb).1
    · rw [hstill v hv]
      exact h.state.mayBlock v (exec_blocked he hv hb)
  · rw [hafter.blocked] at hb
    rw [hon'] at hv
    split at hv
    · exact absurd hv (by simp)
    · rename_i hsw
      obtain rfl := Option.some.inj hv
      rw [hself]
      exact (exec_blocks he (h.state.onCpu t hon) hb).2 (by simpa using hsw)
  · rw [hafter.blocked]
    by_cases hvt : v = t
    · subst hvt
      exact exec_enqueueSelf he (hself ▸ hv)
    · rw [hstill v hvt] at hv
      rw [exec_state he hvt (fun m' hp => ?_) fun hp => ?_]
      · exact h.state.enqueues v m hv
      · have := hwoken m' v hp
        rw [hv] at this
        exact absurd this (by simp [Pc.retryOf])
      · have := hjoiner v hp
        rw [hv] at this
        exact absurd this (by simp [Pc.sleepsOf])
  · by_cases hl : (s.pcOf t).lockOf = some m
    · exact (h.lock m).stmt_lock h.state hon hl he (hafter.mutex m) hpc hafter.blocked
    by_cases hu : (s.pcOf t).unlockOf = some m
    · exact (h.lock m).stmt_unlock hu he (hafter.mutex m) hpc hafter.blocked (hnw.unlock m)
    have hoff : ¬ (s.pcOf t).OnMutex m := fun hm => hm.elim hl hu
    obtain ⟨hmu, hnext⟩ := exec_offMutex he hoff
    refine (h.lock m).frame ((hafter.mutex m).trans hmu) fun v hv => ?_
    have hvt : v ≠ t := by
      rintro rfl
      exact hv.elim hoff (hself ▸ hnext)
    have hvm : (s.pcOf v).OnMutex m := hv.elim id fun hv => hstill v hvt ▸ hv
    refine ⟨hstill v hvt, ?_⟩
    rw [hafter.blocked, exec_state he hvt (fun m' hp => ?_) fun hp => ?_]
    · rfl
    · obtain rfl := Pc.retryOf_unique (hwoken m' v hp) hvm
      exact hu (by rw [hp]; rfl)
    · exact Pc.not_onMutex_of_inJoin
        (Pc.inJoin_of_joinOf (Pc.joinOf_of_sleepsOf (hjoiner v hp)).1) hvm
  · by_cases hp : (s.pcOf t).inJoin = true
    · exact (h.target u).stmt hp he hafter.joined hafter.table hafter.allocated hpc
        fun v hv hj => hnw.join v hv hj
    rw [Bool.not_eq_true] at hp
    obtain ⟨htable, halloc, hjoined, hnext⟩ := exec_offJoin he hp
    refine (h.target u).frame ((hafter.joined u).trans (hjoined u)) (hafter.table.trans htable)
      ((hafter.allocated u).trans (by rw [halloc])) fun v hv => hstill v ?_
    rintro rfl
    rw [hself, hp, hnext] at hv
    exact absurd hv (by simp)
  · by_cases hj : (s.pcOf t).inJoin = true
    · exact (h.join u).stmt_join (h.target u) h.state hon hj he hafter.waiting hpc
        hafter.blocked hafter.terminated
    by_cases hx : (s.pcOf t).inExit = true
    · exact (h.join u).stmt_exit (h.target u) hx he hafter.waiting hpc hafter.blocked
        hafter.terminated hnw.exit hnw.joiner
    rw [Bool.not_eq_true] at hj hx
    obtain ⟨-, -, -, hnext⟩ := exec_offJoin he hj
    obtain ⟨hwaiting, hnext'⟩ := exec_offExit he hj hx
    refine (h.join u).frame ((hafter.waiting u).trans (hwaiting u)) fun v hv => ?_
    have hvt : v ≠ t := by
      rintro rfl
      rw [hself, hj, hx, hnext, hnext'] at hv
      exact absurd hv (by simp)
    rw [hstill v hvt, or_self] at hv
    refine ⟨hstill v hvt, ?_⟩
    rw [hafter.blocked, hafter.terminated, exec_state he hvt (fun m' hp => ?_) fun hp => ?_]
    · exact ⟨.rfl, .rfl⟩
    · obtain ⟨h1, h2⟩ := Pc.not_inJoin_of_retryOf (hwoken m' v hp)
      rw [h1, h2] at hv
      exact absurd hv (by simp)
    · rw [hp] at hx
      exact absurd hx (by simp [Pc.inExit])
/-- The scheduler's part of a step: the position of no thread changes, and a thread is BLOCKED
or TERMINATED after it exactly if it was before. -/
theorem WaitInv.scheduled (h : WaitInv s) (hpc : s'.pcOf = s.pcOf)
    (hafter : AfterStmt s' s.shared)
    (hon : ∀ v, s'.onCpu = some v → s'.stateOf v ≠ .blocked) : WaitInv s' := by
  refine ⟨⟨fun v hb => ?_, fun v hv hb => absurd hb (hon v hv), fun v m hv => ?_⟩, fun m => ?_,
    fun u => ?_, fun u => ?_⟩
  · rw [hpc]
    exact h.state.mayBlock v ((hafter.blocked v).mp hb)
  · exact (hafter.blocked v).mpr (h.state.enqueues v m (hpc ▸ hv))
  · exact (h.lock m).frame (hafter.mutex m) fun v _ => ⟨by rw [hpc], hafter.blocked v⟩
  · exact (h.target u).frame (hafter.joined u) hafter.table (hafter.allocated u)
      fun v _ => by rw [hpc]
  · exact (h.join u).frame (hafter.waiting u)
      fun v _ => ⟨by rw [hpc], hafter.blocked v, hafter.terminated v⟩

/-- A thread calls the library. -/
theorem WaitInv.call (h : WaitInv s) {k : Call} (hon : s.onCpu = some t)
    (huser : s.pcOf t = .user) (hsh : s'.shared = s.shared)
    (hpc : ∀ v, s'.pcOf v = if v = t then k.entry else s.pcOf v)
    (hon' : s'.onCpu = some t) : WaitInv s' := by
  have hstate : ∀ v, s'.stateOf v = s.stateOf v := fun v => by
    rw [State.stateOf, hsh]
    rfl
  -- the thread that calls is on the CPU, so it does not sleep
  have hawake : s.stateOf t ≠ .blocked := fun hb => by
    have := h.state.mayBlock t hb
    rw [huser] at this
    exact absurd this (by simp [Pc.mayBlock])
  refine ⟨⟨?_, ?_, ?_⟩, fun m => ?_, fun u => ?_, fun u => ?_⟩
  -- sleeping threads and the one on the CPU
  · intro v hb
    rw [hstate] at hb
    have hv : v ≠ t := fun hv => hawake (hv ▸ hb)
    rw [hpc, if_neg hv]
    exact h.state.mayBlock v hb
  · intro v hv hb
    rw [hon'] at hv
    rw [hstate, ← Option.some.inj hv] at hb
    exact absurd hb hawake
  · intro v m hv
    rw [hpc] at hv
    split at hv
    · cases k <;> simp [Call.entry] at hv
    · exact (hstate v).trans (h.state.enqueues v m hv)
  -- the waiters of each mutex: a call starts before any of the statements that wake
  · have hwaker : ∀ a w, s'.pcOf a = .readyWaiter m w ↔ s.pcOf a = .readyWaiter m w := by
      intro a w
      rw [hpc]
      split
      · rename_i ha
        rw [ha, huser]
        cases k <;> simp [Call.entry]
      · rfl
    obtain ⟨⟨hnodup, hqueued, hsleeping, hwoken, hone⟩, hhelped⟩ := h.lock m
    refine ⟨⟨by rw [hsh]; exact hnodup, ?_, ?_, ?_, ?_⟩, ?_⟩
    · grind
    · simp only [hwaker]
      grind
    · simp only [hwaker]
      grind
    · simp only [hwaker]
      exact hone
    · intro hl b hb
      -- the sleeper and its helper are threads other than the one that calls
      have hbt : b ≠ t := by
        rintro rfl
        rw [State.Pending, hpc, if_pos rfl, hstate] at hb
        exact hb.elim (fun hb => by cases k <;> simp [Call.entry, Pc.unqueuedOf] at hb)
          fun hb => hawake hb.1
      have hpb : s'.pcOf b = s.pcOf b := by rw [hpc, if_neg hbt]
      obtain ⟨c, hc⟩ := hhelped (hsh ▸ hl) b (by rwa [State.Pending, hpb, hstate] at hb)
      have hct : c ≠ t := by
        rintro rfl
        rw [State.Helps, huser] at hc
        exact absurd hc (by simp [Pc.wakesOf, Pc.retryOf])
      refine ⟨c, ?_⟩
      rwa [State.Helps, hpc, if_neg hct, hstate]
  -- the thread joined, and those that join it: the call has not come to its target yet
  · have hj : k.entry.joinOf = none ∧ (∀ i u, k.entry ≠ .checkSelf i u) ∧
        ∀ u, k.entry ≠ .checkJoined u := by cases k <;> simp [Call.entry, Pc.joinOf]
    obtain ⟨ha, hf, htab, hm, ho⟩ := h.target u
    refine ⟨?_, ?_, by rwa [hsh], ?_, ?_⟩ <;> simp only [hsh, hpc] <;> grind
  · have hj : k.entry.unregisteredOf = none ∧ k.entry.sleepsOf = none ∧
        k.entry.ended = false ∧ k.entry.exits = false := by
      cases k <;> simp [Call.entry, Pc.unregisteredOf, Pc.sleepsOf, Pc.ended, Pc.exits]
    obtain ⟨hr, hun, haw, hex⟩ := h.join u
    refine ⟨?_, ?_, ?_, ?_⟩ <;> simp only [hsh, hpc, hstate] <;> grind

/-- A new thread starts in a block that no thread refers to. -/
theorem WaitInv.create (h : WaitInv s) {v : TcbPtr} {fresh : Tcb} (hon : s.onCpu = some t)
    (hne : v ≠ t) (hfree : s.shared.allocated v = false) (hexited : s.pcOf v = .exited)
    (hsh : s'.shared = s.shared.create v fresh)
    (hpc : ∀ x, s'.pcOf x = if x = v then .user else s.pcOf x)
    (hon' : s'.onCpu = some t) : WaitInv s' := by
  have hstate : ∀ x, s'.stateOf x = if x = v then .ready else s.stateOf x := fun x => by
    rw [State.stateOf, hsh, Shared.create_tcb]
    split <;> rfl
  refine ⟨⟨?_, ?_, ?_⟩, fun m => ?_, fun u => ?_, fun u => ?_⟩
  · intro x hb
    have hmay := h.state.mayBlock x
    grind
  · intro x hx hb
    rw [hon', ← hon] at hx
    have honCpu := h.state.onCpu x hx
    grind
  · intro x m hx
    have henq := h.state.enqueues x m
    grind
  -- the new thread is in no call on a mutex
  · refine (h.lock m).frame (by rw [hsh]; rfl) fun x hx => ?_
    have hxv : x ≠ v := by
      rintro rfl
      rw [hpc, if_pos rfl, hexited] at hx
      exact absurd hx (by simp [Pc.OnMutex, Pc.lockOf, Pc.unlockOf])
    rw [hpc, if_neg hxv, hstate, if_neg hxv]
    exact ⟨rfl, .rfl⟩
  -- no thread refers to the block, which was free
  · obtain ⟨ha, hf, htab, hm, ho⟩ := h.target u
    refine ⟨?_, ?_, ?_, ?_, ?_⟩ <;> simp only [hsh, hpc]
    · grind
    · grind
    · grind
    · grind
    · grind
  · obtain ⟨hr, hun, haw, hex⟩ := h.join u
    refine ⟨?_, ?_, ?_, ?_⟩ <;> simp only [hsh, hpc, hstate]
    · grind [Pc.ended]
    · grind [Pc.ended]
    · grind [Pc.ended]
    · grind [Pc.exits]
/-- Every timely step keeps the waiting threads and those that wake them in step. -/
theorem WaitInv.step (h : WaitInv s) {l : Label} (hm : Moved s s' l) (hl : Timely s l) :
    WaitInv s' := by
  cases hm with
  -- a statement, in time by the condition
  | stmt t sh next hon he hsh hpc hin hon' =>
    exact h.stmt (hl.2 rfl t hon) hon he (afterStmt hsh)
      (fun v => by rw [hpc, update_apply]) hon'
  | call t k hon huser hsh hpc hin hon' =>
    exact h.call hon huser hsh (fun v => by rw [hpc, update_apply]) hon'
  | create t v fresh hon huser hne hfree hexited hsh hpc hin hon' =>
    exact h.create hon hne hfree hexited hsh (fun x => by rw [hpc, update_apply]) hon'
  | tick t hon hsh hpc hin hon' =>
    -- a tick moves no thread within its call
    refine h.scheduled hpc (afterStmt (b := true) (t := t) (by rw [hsh, if_pos rfl])) fun v hv => ?_
    rw [hon'] at hv
    exact absurd hv (by simp)
  | dispatch t q hon hready hsh hpc hin hon' =>
    -- only the thread that is dispatched changes, from `READY` to `RUNNING`
    have hstate : ∀ v, s'.stateOf v = if v = t then .running else s.stateOf v := fun v => by
      rw [State.stateOf, hsh]
      change ((s.shared.setState t .running).tcb v).state = _
      rw [Shared.setState_tcb]
      split <;> rfl
    have hready' : s.stateOf t = .ready := hready
    refine h.scheduled hpc ⟨fun m => by rw [hsh]; rfl, by rw [hsh]; rfl, fun v => by rw [hsh]; rfl,
      fun v => ?_, fun v => ?_, fun v => ?_, fun v => ?_⟩ fun v hv => ?_
    · rw [hsh]
      change ((s.shared.setState t .running).tcb v).joined = _
      grind
    · rw [hsh]
      change ((s.shared.setState t .running).tcb v).waitingThread = _
      grind
    · rw [hstate]
      grind [State.stateOf]
    · rw [hstate]
      grind [State.stateOf]
    · rw [hon'] at hv
      rw [hstate, if_pos (Option.some.inj hv).symm]
      simp

theorem IsInit.waitInv (h : IsInit s) : WaitInv s := by
  have hpc : ∀ t, s.pcOf t = .user ∧ s.stateOf t = .running ∨
      s.pcOf t = .exited ∧ s.stateOf t = .terminated := by
    intro t
    by_cases ht : t = s.mainTcb
    · rw [ht, State.pcOf_self h.cpu]
      exact .inl ⟨rfl, h.mainState⟩
    · rw [State.pcOf_other h.cpu ht, (h.others t ht).1]
      exact .inr ⟨rfl, (h.others t ht).2.2⟩
  have hqueue : ∀ m, (s.shared.mutex m).waitQueue = [] := by
    intro m
    rcases h.mutexes m with ⟨hm, -⟩ | ⟨hm, -⟩ <;> rw [hm] <;> rfl
  have htable : ∀ u, some u ∉ s.shared.table := by
    intro u hu
    rw [h.table] at hu
    exact absurd (List.eq_of_mem_replicate hu) (by simp)
  refine ⟨⟨?_, ?_, ?_⟩, fun m => ⟨⟨?_, ?_, ?_, ?_, ?_⟩, ?_⟩, fun u => ⟨?_, ?_, ?_, ?_, ?_⟩,
    fun u => ⟨?_, ?_, ?_, ?_⟩⟩
  all_goals grind [Pc.joinOf, Pc.unregisteredOf, Pc.sleepsOf, Pc.ended, Pc.exits, Pc.retryOf,
    Pc.unqueuedOf, State.Pending]
end

/-- A thread is switched out in state BLOCKED inside `worker_mutex_lock(m)`. -/
def State.SleepsInLock (s : State) (m : MutexPtr) (b : TcbPtr) : Prop :=
  s.onCpu ≠ some b ∧ s.stateOf b = .blocked ∧ (s.pcOf b).lockOf = some m

/-- The flag is clear, a thread is switched out in state BLOCKED inside `worker_mutex_lock`, and
no other thread is in the middle of lock or unlock on the mutex. -/
def State.LostInLock (s : State) (m : MutexPtr) : Prop :=
  (s.shared.mutex m).locked = false ∧ ∃ b, s.SleepsInLock m b ∧
    ∀ c, c ≠ b → ¬ (s.pcOf c).OnMutex m

/-- The thread is inside `worker_join(u)`. -/
def Pc.JoinsTarget (u : TcbPtr) (p : Pc) : Prop :=
  (∃ i, p = .checkSelf i u) ∨ p = .checkJoined u ∨ p.joinOf = some u

/-- `u` has completed `worker_exit`, and a thread is switched out in state BLOCKED inside
`worker_join(u)`. -/
def State.LostInJoin (s : State) (u : TcbPtr) : Prop :=
  s.pcOf u = .exited ∧ ∃ j, s.onCpu ≠ some j ∧ s.stateOf j = .blocked ∧ (s.pcOf j).JoinsTarget u

theorem timelyRun_inv {ls : List Label} {s : State} (hr : Run (machine.restrict Timely) ls s) :
    OwnContexts s ∧ WaitInv s := by
  refine hr.invariant (I := fun s => OwnContexts s ∧ WaitInv s)
    (fun s h => ⟨IsInit.ownContexts h, IsInit.waitInv h⟩) fun s l s' hI hs => ?_
  obtain ⟨hown, hmoved, -⟩ := hI.1.step hs.1 hs.2.1
  exact ⟨hown, hI.2.step hmoved hs.2⟩

/-- **No lost wake-up** in a timely run, for any number of threads and mutexes and ticks
between any two statements. More than the flag not being clear for ever: while it is clear,
a thread that sleeps in `worker_mutex_lock` is not the only one in a call on the mutex, and
one of the others is on its way to wake a waiter or to take the flag. -/
theorem no_lost_wakeup {ls : List Label} {s : State} (hr : Run (machine.restrict Timely) ls s) :
    (∀ m, ¬ s.LostInLock m) ∧ (∀ u, ¬ s.LostInJoin u) ∧
      ∀ m b, (s.shared.mutex m).locked = false → s.SleepsInLock m b →
        ∃ c, c ≠ b ∧ ((s.pcOf c).unlockOf = some m ∨
          (s.pcOf c).lockOf = some m ∧ s.stateOf c ≠ .blocked) := by
  obtain ⟨-, hinv⟩ := timelyRun_inv hr
  -- with the flag clear, a sleeper has a helper in a call on the same mutex
  have hawake : ∀ m b, (s.shared.mutex m).locked = false → s.SleepsInLock m b →
      ∃ c, c ≠ b ∧ ((s.pcOf c).unlockOf = some m ∨
        (s.pcOf c).lockOf = some m ∧ s.stateOf c ≠ .blocked) := by
    rintro m b hl ⟨-, hb, hlock⟩
    have hmay := hinv.state.mayBlock b hb
    have hpend : s.Pending m b := by
      rw [State.Pending]
      cases hp : s.pcOf b <;> simp_all [Pc.lockOf, Pc.mayBlock, Pc.unqueuedOf, Pc.retryOf]
    obtain ⟨c, hc⟩ := (hinv.lock m).helped hl b hpend
    have hcall : (s.pcOf c).unlockOf = some m ∨
        (s.pcOf c).lockOf = some m ∧ s.stateOf c ≠ .blocked :=
      hc.imp Pc.unlockOf_of_wakesOf fun hc => ⟨Pc.lockOf_of_retryOf hc.2, hc.1⟩
    refine ⟨c, ?_, hcall⟩
    rintro rfl
    rcases hcall with hcall | hcall
    · cases hp : s.pcOf c <;> simp_all [Pc.lockOf, Pc.unlockOf]
    · exact hcall.2 hb
  refine ⟨fun m ⟨hl, b, hb, hnone⟩ => ?_, fun u ⟨hexited, j, _, hj, hjoin⟩ => ?_, hawake⟩
  · obtain ⟨c, hcb, hc⟩ := hawake m b hl hb
    exact hnone c hcb (hc.elim .inr fun hc => .inl hc.1)
  -- the joiner sleeps before its target ended, so the target has to wake it first
  · have hmay := hinv.state.mayBlock j hj
    have hended : (s.pcOf u).ended = true := by rw [hexited]; rfl
    have hpend : (s.pcOf j).unregisteredOf = some u ∨ (s.pcOf j).sleepsOf = some u := by
      rcases hjoin with ⟨i, hp⟩ | hp | hp
      · rw [hp] at hmay
        exact absurd hmay (by simp [Pc.mayBlock])
      · rw [hp] at hmay
        exact absurd hmay (by simp [Pc.mayBlock])
      · cases hpj : s.pcOf j <;>
          simp_all [Pc.joinOf, Pc.mayBlock, Pc.unregisteredOf, Pc.sleepsOf]
    rcases hpend with hp | hp
    · exact absurd ((hinv.join u).unregistered j hp) (by rw [hended]; simp)
    · exact absurd ((hinv.join u).awaited j hj hp) (by rw [hended]; simp)

/-- The statements that look for waiters or joiners. -/
def Pc.tests : Pc → Bool
  | .checkQueue _ | .checkWaiting | .readyJoiner _ | .checkJoined _ => true
  | _ => false

/-- Steps that are timely because no test is made. -/
def Untested (s : State) (l : Label) : Prop :=
  DispatchesReady s l ∧ ∀ c ∈ s.cpu, c.pc.tests = false

instance (s : State) (l : Label) : Decidable (Untested s l) :=
  inferInstanceAs (Decidable (_ ∧ _))

theorem Untested.timely {s : State} {l : Label} (h : Untested s l) : Timely s l := by
  refine ⟨h.1, fun _ t ht => ?_⟩
  obtain ⟨c, hc, rfl⟩ := Option.map_eq_some_iff.mp ht
  have htests := h.2 c hc
  rw [← State.pcOf_self hc] at htests
  refine ⟨fun m hp => ?_, fun hp => ?_, fun w hp => ?_, fun u hp => ?_⟩ <;>
    exact absurd htests (by rw [hp]; simp [Pc.tests])

/-- Thread `1` sleeps in `worker_mutex_lock` and the main thread has just cleared the flag. -/
def contended : List Label :=
  [.call (.lock 0), .stmt, .stmt, .create 1 Tcb.zero, .tick,
    .dispatch 1, .call (.lock 0), .stmt, .stmt, .stmt, .stmt, .stmt,
    .dispatch 0, .call (.unlock 0), .stmt, .stmt, .stmt]

theorem no_lost_wakeup_contended : ∃ s, Run (machine.restrict Timely) contended s ∧
    (s.shared.mutex 0).locked = false ∧ s.SleepsInLock 0 1 ∧
      ∃ c, c ≠ 1 ∧ ((s.pcOf c).unlockOf = some 0 ∨
        (s.pcOf c).lockOf = some 0 ∧ s.stateOf c ≠ .blocked) := by
  obtain ⟨s, hs, hon, hl, hb, hpc⟩ : ∃ s,
      steps (stepIf Untested step) .first contended = some s ∧ s.onCpu = some 0 ∧
      (s.shared.mutex 0).locked = false ∧ s.stateOf 1 = .blocked ∧
      s.pcOf 1 = .testAndSet 0 := ⟨_, rfl, rfl, rfl, rfl, rfl⟩
  have hr : Run (machine.restrict Timely) contended s :=
    (Run.stepsIf (fun _ _ _ h => h) State.first_isInit hs).restrict_mono fun _ _ h => h.timely
  have hsleeps : s.SleepsInLock 0 1 := ⟨by simp [hon], hb, by rw [hpc]; rfl⟩
  exact ⟨s, hr, hl, hsleeps, (no_lost_wakeup hr).2.2 0 1 hl hsleeps⟩

/-- The main thread unlocks between the failed test of thread `1` and its entry into the wait
queue. -/
def lateWaiter : List Label :=
  [.call (.lock 0), .stmt, .stmt, .create 1 Tcb.zero, .tick,
    .dispatch 1, .call (.lock 0), .stmt, .tick,
    .dispatch 0, .call (.unlock 0), .stmt, .stmt, .stmt, .stmt, .tick,
    .dispatch 1, .stmt, .stmt, .stmt, .stmt]

/-- Thread `1` ends between the test for TERMINATED in the main thread's join and the store
into `waiting_thread`. -/
def lateJoiner : List Label :=
  [.create 1 Tcb.zero, .call (.join 1), .stmt, .stmt, .stmt, .stmt, .stmt, .tick,
    .dispatch 1, .call (.exit 7), .stmt, .stmt, .stmt, .stmt,
    .dispatch 0, .stmt, .stmt, .stmt, .stmt]

theorem steps_lateWaiter : ∃ s, steps (stepIf RoundRobin step) .first lateWaiter = some s ∧
    s.onCpu = none ∧ (s.shared.mutex 0).locked = false ∧ s.stateOf 1 = .blocked ∧
    ∀ c, s.pcOf c = match c with | 0 => .user | 1 => .testAndSet 0 | _ => .exited := by
  refine ⟨_, rfl, rfl, rfl, rfl, fun c => ?_⟩
  match c with
  | 0 => rfl
  | 1 => rfl
  | n + 2 => rfl

theorem steps_lateJoiner : ∃ s, steps (stepIf RoundRobin step) .first lateJoiner = some s ∧
    s.onCpu = none ∧ s.stateOf 0 = .blocked ∧ s.pcOf 0 = .readRetval 1 ∧ s.pcOf 1 = .exited :=
  ⟨_, rfl, rfl, rfl, rfl, rfl⟩

/-- Under round robin, one tick between the failed test-and-set and `state = BLOCKED` leaves a
thread asleep on a free mutex, and one tick between the test for TERMINATED and the store into
`waiting_thread` leaves a joiner asleep for ever. -/
theorem wakeup_lost :
    (∃ ls s, Run (machine.restrict RoundRobin) ls s ∧ s.LostInLock 0) ∧
      ∃ ls s, Run (machine.restrict RoundRobin) ls s ∧ s.LostInJoin 1 := by
  obtain ⟨s, hs, hon, hl, hb, hpc⟩ := steps_lateWaiter
  obtain ⟨u, hu, hon', hb', hpc0, hpc1⟩ := steps_lateJoiner
  refine ⟨⟨lateWaiter, s, Run.stepsIf (fun _ _ _ h => h) State.first_isInit hs, hl, 1,
    ⟨by simp [hon], hb, by rw [hpc]; rfl⟩, fun c hc => ?_⟩,
    ⟨lateJoiner, u, Run.stepsIf (fun _ _ _ h => h) State.first_isInit hu, hpc1, 0,
      by simp [hon'], hb', .inr (.inr (by rw [hpc0]; rfl))⟩⟩
  rw [hpc]
  match c, hc with
  | 0, _ => simp [Pc.OnMutex, Pc.lockOf, Pc.unlockOf]
  | n + 2, _ => simp [Pc.OnMutex, Pc.lockOf, Pc.unlockOf]

end ThreadWorker
