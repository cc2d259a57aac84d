import Cs416.Threads.JoinSafety

/-!
# `worker_exit` and the thread that waits

`worker_exit` decides by `waiting_thread` whom to wake. `worker_join` stores that field, but
neither `worker_create` nor `init_main_thread` does, so that in a thread that nobody has joined it
is what `malloc` left there. `WakesJoiner` is what a call of `worker_exit` should do; it does so
exactly when the field has been stored, or happens to be `NULL` (`exit_wakes_joiner_iff`).

What the memory held is kept out of `Sound`: the field as it would be had `worker_create` cleared
it is a function `waiting` beside the state (`Stored`), and a call on the state with `waiting` in
place of the field does the same as on the state itself (`act_withWaiting`).
-/

open Function Lts

namespace ThreadWorker

namespace Library

/-! ### The field, replaced -/

/-- The state with `waiting` for the contents of the fields `waiting_thread`. -/
def State.withWaiting (s : State) (waiting : TcbPtr → Option TcbPtr) : State :=
  { s with tcb := fun t => { s.tcb t with waitingThread := waiting t } }

/-- The operation, had `malloc` returned a block with `waiting_thread` cleared. -/
def Op.cleared : Op → Op
  | .create u fresh => .create u { fresh with waitingThread := none }
  | op => op

section

variable (s : State) (waiting : TcbPtr → Option TcbPtr) (t : TcbPtr)

@[simp] theorem withWaiting_tcb :
    (s.withWaiting waiting).tcb t = { s.tcb t with waitingThread := waiting t } := rfl

@[simp] theorem withWaiting_allocated : (s.withWaiting waiting).allocated = s.allocated := rfl

@[simp] theorem withWaiting_table : (s.withWaiting waiting).table = s.table := rfl

@[simp] theorem withWaiting_idOf : (s.withWaiting waiting).idOf = s.idOf := rfl

@[simp] theorem withWaiting_nextThreadId :
    (s.withWaiting waiting).nextThreadId = s.nextThreadId := rfl

@[simp] theorem withWaiting_mutex : (s.withWaiting waiting).mutex = s.mutex := rfl

@[simp] theorem withWaiting_mainTcb : (s.withWaiting waiting).mainTcb = s.mainTcb := rfl

@[simp] theorem withWaiting_runningTcb : (s.withWaiting waiting).runningTcb = s.runningTcb := rfl

@[simp] theorem withWaiting_context : (s.withWaiting waiting).context = s.context := rfl

@[simp] theorem withWaiting_cpu : (s.withWaiting waiting).cpu = s.cpu := rfl

end

section

variable {pol : Policy} {s s₁ : State} {waiting waiting' : TcbPtr → Option TcbPtr} {r u : TcbPtr}
  {after : After}

theorem setTcb_withWaiting {b b' : Tcb} (hb : b' = { b with waitingThread := waiting' r })
    (hw : ∀ t, t ≠ r → waiting' t = waiting t) :
    (s.withWaiting waiting).setTcb r b' = (s.setTcb r b).withWaiting waiting' := by
  have htcb : update (s.withWaiting waiting).tcb r b'
      = fun t => { update s.tcb r b t with waitingThread := waiting' t } := by
    funext t
    by_cases ht : t = r
    · rw [ht, update_self, update_self, hb]
    · rw [update_of_ne ht, update_of_ne ht, hw t ht]
      rfl
  exact congrArg (fun tcb => { s with tcb := tcb }) htcb

theorem setState_withWaiting (st : ThreadState) :
    (s.withWaiting waiting).setState r st = (s.setState r st).withWaiting waiting :=
  setTcb_withWaiting rfl fun _ _ => rfl

/-- The comparators do not read the field. -/
theorem addToScheduler_withWaiting :
    addToScheduler pol (s.withWaiting waiting) r
      = (addToScheduler pol s r).map fun s₁ => s₁.withWaiting waiting := by
  cases pol with
  | psjf =>
    change (s.psjfHeap.push (psjfCmp s.tcb) r).map _ = ((s.psjfHeap.push _ r).map _).map _
    rw [Option.map_map]
    rfl
  | mlfq =>
    unfold addToScheduler
    dsimp only [withWaiting_tcb]
    split <;> rfl
  | cfs =>
    change (s.cfsHeap.push (cfsCmp s.tcb) r).map _ = ((s.cfsHeap.push _ r).map _).map _
    rw [Option.map_map]
    rfl
  | rr => rfl

theorem lockLoop_withWaiting {m : MutexPtr} :
    lockLoop (s.withWaiting waiting) m
      = (lockLoop s m).map fun x => (x.1.withWaiting waiting, x.2) := by
  unfold lockLoop
  change (if (s.mutex m).locked = true then _ else _) = _
  by_cases hl : (s.mutex m).locked = true
  · rw [if_pos hl, if_pos hl]
    dsimp only [withWaiting_runningTcb]
    cases s.runningTcb with
    | none => rfl
    | some r =>
      change some (State.save (if (s.tcb r).state ≠ .blocked then _ else _) r _, _) = _
      dsimp only
      by_cases hb : (s.tcb r).state ≠ .blocked
      · rw [if_pos hb, if_pos hb, setState_withWaiting]
        rfl
      · rw [if_neg hb, if_neg hb]
        rfl
  · rw [if_neg hl, if_neg hl]
    rfl

theorem unlock_withWaiting {m : MutexPtr} :
    unlock pol (s.withWaiting waiting) m
      = (unlock pol s m).map fun x => (x.1.withWaiting waiting, x.2) := by
  unfold unlock
  change (if (s.mutex m).ownerTcb ≠ s.runningTcb then _ else _) = _
  by_cases howner : (s.mutex m).ownerTcb ≠ s.runningTcb
  · rw [if_pos howner, if_pos howner]
    rfl
  · rw [if_neg howner, if_neg howner]
    dsimp only [withWaiting_mutex]
    cases (s.mutex m).waitQueue with
    | nil => rfl
    | cons w rest =>
      change (addToScheduler pol (((s.setMutex m _).withWaiting waiting).setState w .ready) w).map _
        = _
      rw [setState_withWaiting, addToScheduler_withWaiting, Option.map_map, Option.map_map]
      rfl

theorem resume_withWaiting :
    resume (s.withWaiting waiting)
      = (resume s).map fun x => (x.1.withWaiting waiting, x.2) := by
  unfold resume
  dsimp only [withWaiting_cpu]
  cases s.cpu.point with
  | user => rfl
  | locking m =>
    change lockLoop (State.withWaiting { s with cpu := ⟨s.cpu.who, .user⟩ } waiting) m = _
    exact lockLoop_withWaiting
  | joining thread target => rfl
  | exited => rfl

theorem createFails_withWaiting {stack : Bool} :
    createFails (s.withWaiting waiting) stack
      = (createFails s stack).map fun x => (x.1.withWaiting waiting, x.2) := by
  cases stack with
  | false => rfl
  | true =>
    change (if s.nextThreadId < 2 ^ 31 - 1 then _ else _)
      = Option.map _ (if s.nextThreadId < 2 ^ 31 - 1 then _ else _)
    by_cases hid : s.nextThreadId < 2 ^ 31 - 1
    · rw [if_pos hid, if_pos hid]
      rfl
    · rw [if_neg hid, if_neg hid]
      rfl

/-- The block of a new thread comes with the field cleared. -/
theorem create_withWaiting {fresh : Tcb} :
    create pol (s.withWaiting waiting) u { fresh with waitingThread := none }
      = (create pol s u fresh).map fun x => (x.1.withWaiting (update waiting u none), x.2) := by
  unfold create
  change (if s.allocated u = false ∧ s.nextThreadId < 2 ^ 31 - 1 then _ else _) = _
  by_cases hfree : s.allocated u = false ∧ s.nextThreadId < 2 ^ 31 - 1
  · rw [if_pos hfree, if_pos hfree, Option.map_map]
    change _ = Option.map ((fun s => (s, After.ret (.created _))) ∘ fun s : State =>
      s.withWaiting (update waiting u none)) _
    rw [← Option.map_map, ← addToScheduler_withWaiting]
    have hset : (s.withWaiting waiting).setTcb u
        (Tcb.create { fresh with waitingThread := none } s.nextThreadId)
        = (s.setTcb u (fresh.create s.nextThreadId)).withWaiting (update waiting u none) :=
      setTcb_withWaiting (by rw [update_self]; rfl) fun t ht => update_of_ne ht _ _
    have htcb := congrArg State.tcb hset
    dsimp only [State.setTcb] at htcb
    dsimp only [withWaiting_nextThreadId]
    rw [htcb]
    rfl
  · rw [if_neg hfree, if_neg hfree]
    rfl

/-- `worker_exit` clears the field, if it is not `NULL`. -/
theorem exit_withWaiting {v : Value} (hrun : s.runningTcb = some r)
    (hw : waiting r = (s.tcb r).waitingThread) :
    exit pol (s.withWaiting waiting) v
      = (exit pol s v).map fun x => (x.1.withWaiting (update waiting r none), x.2) := by
  unfold exit
  dsimp only [withWaiting_runningTcb]
  rw [hrun]
  dsimp only [withWaiting_tcb]
  have hends : (s.withWaiting waiting).setTcb r
      { s.tcb r with state := .terminated, retval := v, waitingThread := waiting r }
      = (s.setTcb r { s.tcb r with state := .terminated, retval := v }).withWaiting waiting :=
    setTcb_withWaiting rfl fun _ _ => rfl
  rw [hends]
  -- the field that the call reads is that of the thread that ends, the same in both states
  have hself : ((s.setTcb r { s.tcb r with state := .terminated, retval := v }).tcb r).waitingThread
      = waiting r := by
    rw [hw]
    simp [State.setTcb]
  generalize s.setTcb r { s.tcb r with state := .terminated, retval := v } = s' at hself ⊢
  dsimp only [withWaiting_tcb]
  rw [hself]
  cases hwr : waiting r with
  -- nobody waits: there is nothing to clear
  | none =>
    have hsame : update waiting r none = waiting := by rw [← hwr, update_eq_self]
    rw [hsame]
    rfl
  -- the waiter goes to the run queue, which does not read the field
  | some w =>
    dsimp only
    change Option.map _ (addToScheduler pol
      ((State.withWaiting { s' with threadCount := s'.threadCount - 1 } waiting).setState w .ready)
      w) = _
    rw [setState_withWaiting, addToScheduler_withWaiting, Option.map_map, Option.map_map]
    refine congrArg (fun f => Option.map f _) (funext fun s₂ => ?_)
    have hclear : (s₂.withWaiting waiting).setTcb r
        { (s₂.withWaiting waiting).tcb r with waitingThread := none }
        = (s₂.setTcb r { s₂.tcb r with waitingThread := none }).withWaiting
          (update waiting r none) :=
      setTcb_withWaiting (by rw [update_self]; rfl) fun t ht => update_of_ne ht _ _
    exact congrArg (fun s₃ : State => (s₃.save r .exited, After.enter (.exited v))) hclear

/-! ### What `worker_exit` does -/

/-- What `worker_exit` does in the thread `r`, up to its `swapcontext`. -/
structure Exits (pol : Policy) (s : State) (r : TcbPtr) (s₁ : State) : Prop where
  allocated : s₁.allocated = s.allocated
  mainTcb : s₁.mainTcb = s.mainTcb
  joined : ∀ t, (s₁.tcb t).joined = (s.tcb t).joined
  waitingThread : ∀ t, (s₁.tcb t).waitingThread = if t = r then none else (s.tcb t).waitingThread
  state : ∀ t, (s₁.tcb t).state = if (s.tcb r).waitingThread = some t then .ready
    else if t = r then .terminated else (s.tcb t).state
  queue : ∀ t, (queued pol s₁).count t
    = (queued pol s).count t + if (s.tcb r).waitingThread = some t then 1 else 0

theorem exit_spec {v : Value} (hrun : s.runningTcb = some r)
    (he : exit pol s v = some (s₁, after)) : Exits pol s r s₁ := by
  unfold exit at he
  rw [hrun] at he
  have hself : ((s.setTcb r { s.tcb r with state := .terminated, retval := v }).tcb r).waitingThread
      = (s.tcb r).waitingThread := by
    simp [State.setTcb]
  dsimp only at he
  rw [hself] at he
  rcases hw : (s.tcb r).waitingThread with _ | w <;> rw [hw] at he <;> dsimp only at he
  -- nobody waits: the thread only ends
  · obtain ⟨rfl, -⟩ := Prod.mk.inj (Option.some.inj he)
    refine ⟨rfl, rfl, fun t => ?_, fun t => ?_, fun t => ?_, fun t => ?_⟩
    · simp only [State.setTcb, State.save, update_apply]
      grind
    · simp only [State.setTcb, State.save, update_apply]
      grind
    · simp only [State.setTcb, State.save, update_apply, hw]
      grind
    · rw [hw]
      rfl
  -- the waiter is made `READY` and put into the run queue, then the field is cleared
  · obtain ⟨s₂, hadd, heq⟩ := Option.map_eq_some_iff.mp he
    obtain ⟨rfl, -⟩ := Prod.mk.inj heq
    obtain ⟨⟨rr, psjf, mlfq, cfs, rfl⟩, hqueue⟩ := addToScheduler_spec hadd
    refine ⟨rfl, rfl, fun t => ?_, fun t => ?_, fun t => ?_, fun t => ?_⟩
    · simp only [State.setState, State.setTcb, State.save, update_apply]
      grind
    · simp only [State.setState, State.setTcb, State.save, update_apply]
      grind
    · simp only [State.setState, State.setTcb, State.save, update_apply, hw]
      grind
    · rw [hw]
      refine (congrArg (Multiset.count t) hqueue).trans ?_
      rw [Multiset.count_add, Multiset.count_singleton]
      simp only [Option.some.injEq, eq_comm]
      rfl

/-! ### The field, had it been cleared -/

/-- What the field of every thread would hold, had `worker_create` and `init_main_thread` cleared
it: what `worker_join` has stored there. -/
def Stored (s : State) (waiting : TcbPtr → Option TcbPtr) : Prop :=
  ∀ t, s.allocated t = true →
    waiting t = if t ≠ s.mainTcb ∧ (s.tcb t).joined = true then (s.tcb t).waitingThread else none

/-- `worker_join` has stored the field of `t`, or it was `NULL` from the start. -/
def Registered (s : State) (t : TcbPtr) : Prop :=
  (t ≠ s.mainTcb ∧ (s.tcb t).joined = true) ∨ (s.tcb t).waitingThread = none

theorem Stored.eq (h : Stored s waiting) (ha : s.allocated r = true) (hr : Registered s r) :
    waiting r = (s.tcb r).waitingThread := by
  rw [h r ha]
  rcases hr with hjoined | hnone
  · exact if_pos hjoined
  · rw [hnone, ite_self]

/-- A step that gives no thread a waiter. -/
theorem Stored.of_same (h : Stored s waiting)
    (halloc : ∀ t, s₁.allocated t = true → s.allocated t = true) (hmain : s₁.mainTcb = s.mainTcb)
    (hsame : ∀ t, (s₁.tcb t).joined = (s.tcb t).joined ∧
      (s₁.tcb t).waitingThread = (s.tcb t).waitingThread) : Stored s₁ waiting := by
  intro t ha
  rw [hmain, (hsame t).1, (hsame t).2]
  exact h t (halloc t ha)

theorem Stored.setState (h : Stored s waiting) (st : ThreadState) :
    Stored (s.setState r st) waiting := by
  refine h.of_same (fun _ ha => ha) rfl fun t => ?_
  simp only [State.setState, State.setTcb, update_apply]
  split
  · next ht =>
    rw [ht]
    exact ⟨rfl, rfl⟩
  · exact ⟨rfl, rfl⟩

theorem Stored.addToScheduler (h : Stored s waiting) (hadd : addToScheduler pol s r = some s₁) :
    Stored s₁ waiting := by
  obtain ⟨⟨rr, psjf, mlfq, cfs, rfl⟩, -⟩ := addToScheduler_spec hadd
  exact h

theorem Stored.lockLoop {m : MutexPtr} (h : Stored s waiting)
    (he : lockLoop s m = some (s₁, after)) : Stored s₁ waiting := by
  unfold Library.lockLoop at he
  dsimp only at he
  split at he
  · split at he
    · exact absurd he (by simp)
    · obtain ⟨rfl, -⟩ := Prod.mk.inj (Option.some.inj he)
      split
      · exact h.setState .blocked
      · exact h
  · obtain ⟨rfl, -⟩ := Prod.mk.inj (Option.some.inj he)
    exact h

theorem Stored.unlock {m : MutexPtr} (h : Stored s waiting)
    (he : unlock pol s m = some (s₁, after)) : Stored s₁ waiting := by
  unfold Library.unlock at he
  dsimp only at he
  split at he
  · obtain ⟨rfl, -⟩ := Prod.mk.inj (Option.some.inj he)
    exact h
  split at he
  · obtain ⟨rfl, -⟩ := Prod.mk.inj (Option.some.inj he)
    exact h
  · obtain ⟨s₂, hadd, heq⟩ := Option.map_eq_some_iff.mp he
    obtain ⟨rfl, -⟩ := Prod.mk.inj heq
    refine Stored.addToScheduler ?_ hadd
    exact Stored.setState (s := s.setMutex m _) h .ready

theorem Stored.resume (h : Stored s waiting) (he : resume s = some (s₁, after)) :
    Stored s₁ waiting := by
  unfold Library.resume at he
  split at he
  · exact absurd he (by simp)
  · exact Stored.lockLoop (s := { s with cpu := ⟨s.cpu.who, .user⟩ }) h he
  · next target hp =>
    obtain ⟨rfl, -⟩ := Prod.mk.inj (Option.some.inj he)
    refine h.of_same (fun t ha => ?_) rfl fun t => ⟨rfl, rfl⟩
    by_contra hne
    change update s.allocated target false t = true at ha
    rw [update_apply] at ha
    grind
  · obtain ⟨rfl, -⟩ := Prod.mk.inj (Option.some.inj he)
    exact h

/-- Nobody joins the main thread, and a thread that is joined and has not ended is given its
waiter. -/
theorem join_withWaiting {thread : ℕ} (h : Stored s waiting) (hrun : s.runningTcb = some r)
    (hmain : ∀ t, some t ∈ s.table → t ≠ s.mainTcb) (he : join s thread = some (s₁, after)) :
    ∃ waiting', join (s.withWaiting waiting) thread = some (s₁.withWaiting waiting', after) ∧
      Stored s₁ waiting' := by
  unfold join at he ⊢
  dsimp only [withWaiting_table, withWaiting_idOf, withWaiting_runningTcb]
  rcases hfind : findTcbById s.table s.idOf thread with _ | x <;> rw [hfind] at he
  -- no thread has this id
  · obtain ⟨rfl, rfl⟩ := Prod.mk.inj (Option.some.inj he)
    exact ⟨waiting, rfl, h⟩
  have hx := hmain x (mem_of_findTcbById hfind)
  rw [hrun] at he ⊢
  dsimp only at he ⊢
  by_cases hself : (s.tcb r).id = thread
  · rw [if_pos hself] at he
    obtain ⟨rfl, rfl⟩ := Prod.mk.inj (Option.some.inj he)
    exact ⟨waiting, if_pos hself, h⟩
  rw [if_neg (show ¬ ((s.withWaiting waiting).tcb r).id = thread from hself)]
  rw [if_neg hself] at he
  by_cases hj : (s.tcb x).joined = true
  · rw [if_pos hj] at he
    obtain ⟨rfl, rfl⟩ := Prod.mk.inj (Option.some.inj he)
    exact ⟨waiting, if_pos hj, h⟩
  rw [if_neg (show ¬ ((s.withWaiting waiting).tcb x).joined = true from hj)]
  rw [if_neg hj] at he
  -- the two states mark the target alike
  have hmark : (s.withWaiting waiting).setTcb x
      { (s.withWaiting waiting).tcb x with joined := true }
      = (s.setTcb x { s.tcb x with joined := true }).withWaiting waiting :=
    setTcb_withWaiting rfl fun _ _ => rfl
  rw [hmark]
  have hmarked : ∀ t, (s.setTcb x { s.tcb x with joined := true }).tcb t
      = if t = x then { s.tcb x with joined := true } else s.tcb t := update_apply _ _ _
  by_cases hst : ((s.setTcb x { s.tcb x with joined := true }).tcb x).state = .terminated
  -- the target has ended: it is freed, and what its field held no longer matters
  · rw [if_pos hst] at he
    obtain ⟨rfl, rfl⟩ := Prod.mk.inj (Option.some.inj he)
    refine ⟨waiting, if_pos hst, fun t ha => ?_⟩
    have hfreed : (State.cleanupThread (s.setTcb x { s.tcb x with joined := true }) x).allocated x
        = false := update_self _ _ _
    have htx : t ≠ x := by
      rintro rfl
      rw [hfreed] at ha
      exact absurd ha (by decide)
    change waiting t = if t ≠ s.mainTcb ∧ ((s.setTcb x _).tcb t).joined = true then
      ((s.setTcb x _).tcb t).waitingThread else none
    rw [hmarked, if_neg htx]
    exact h t ((update_of_ne htx _ _).symm.trans ha)
  -- the caller blocks: here the field of the target is stored, in both states
  · rw [if_neg hst] at he
    rw [if_neg (show ¬ ((State.withWaiting _ waiting).tcb x).state = .terminated from hst)]
    obtain ⟨rfl, rfl⟩ := Prod.mk.inj (Option.some.inj he)
    have hstore : ∀ S : State, (S.withWaiting waiting).setTcb x
        { (S.withWaiting waiting).tcb x with waitingThread := some r }
        = (S.setTcb x { S.tcb x with waitingThread := some r }).withWaiting
          (update waiting x (some r)) := fun S =>
      setTcb_withWaiting (by rw [update_self]; rfl) fun t ht => update_of_ne ht _ _
    refine ⟨update waiting x (some r), ?_, fun t ha => ?_⟩
    · rw [setState_withWaiting, hstore]
      rfl
    · change s.allocated t = true at ha
      have hold := h t ha
      simp only [State.setState, State.setTcb, State.save, update_apply]
      grind

/-- Nobody has joined a new thread yet. -/
theorem Stored.create {fresh : Tcb} (h : Stored s waiting)
    (he : create pol s u fresh = some (s₁, after)) : Stored s₁ (update waiting u none) := by
  unfold Library.create at he
  dsimp only at he
  split at he
  · obtain ⟨s₂, hadd, heq⟩ := Option.map_eq_some_iff.mp he
    obtain ⟨rfl, -⟩ := Prod.mk.inj heq
    refine Stored.addToScheduler (fun t ha => ?_) hadd
    change update s.allocated u true t = true at ha
    change update waiting u none t = if t ≠ s.mainTcb ∧
      (update s.tcb u (fresh.create s.nextThreadId) t).joined = true then
        (update s.tcb u (fresh.create s.nextThreadId) t).waitingThread else none
    by_cases htu : t = u
    · subst htu
      rw [update_self, update_self, if_neg]
      exact fun hjoined => absurd hjoined.2 (by simp [Tcb.create])
    · rw [update_of_ne htu] at ha ⊢
      rw [update_of_ne htu]
      exact h t ha
  · exact absurd he (by simp)

theorem Stored.createFails {stack : Bool} (h : Stored s waiting)
    (he : createFails s stack = some (s₁, after)) : Stored s₁ waiting := by
  unfold Library.createFails at he
  split at he
  · split at he
    · obtain ⟨rfl, -⟩ := Prod.mk.inj (Option.some.inj he)
      exact h
    · exact absurd he (by simp)
  · obtain ⟨rfl, -⟩ := Prod.mk.inj (Option.some.inj he)
    exact h

/-- A call on the state with the field as it would be had it been cleared. -/
theorem act_withWaiting {op : Op} (h : Stored s waiting) (hrun : s.runningTcb = some r)
    (hra : s.allocated r = true) (hmain : ∀ t, some t ∈ s.table → t ≠ s.mainTcb)
    (hreg : ∀ v, op = .exit v → Registered s r)
    (he : act pol s op = some (s₁, after)) :
    ∃ waiting', act pol (s.withWaiting waiting) op.cleared
      = some (s₁.withWaiting waiting', after) ∧ Stored s₁ waiting' := by
  -- the rest of a call that the scheduler had interrupted does not read the field
  by_cases hop : op = .resume
  · subst hop
    refine ⟨waiting, ?_, h.resume (act_resume he)⟩
    exact resume_withWaiting.trans (congrArg (Option.map _) (act_resume he))
  obtain ⟨hpoint, hcall⟩ := act_call hop he
  have hact : ∀ op', op' ≠ .resume →
      act pol (s.withWaiting waiting) op' = call pol (s.withWaiting waiting) op' := by
    intro op' hop'
    unfold act
    rw [if_neg hop', if_pos (show (s.withWaiting waiting).cpu.point = .user from hpoint)]
  cases op with
  | resume => exact absurd rfl hop
  | tick =>
    unfold call at hcall
    rw [hrun] at hcall
    obtain ⟨rfl, rfl⟩ := Prod.mk.inj (Option.some.inj hcall)
    refine ⟨waiting, (hact _ hop).trans ?_, h⟩
    unfold call
    dsimp only [withWaiting_runningTcb]
    rw [hrun]
    rfl
  | yield =>
    unfold call at hcall
    rw [hrun] at hcall
    obtain ⟨rfl, rfl⟩ := Prod.mk.inj (Option.some.inj hcall)
    refine ⟨waiting, (hact _ hop).trans ?_, h.setState .ready⟩
    unfold call
    dsimp only [withWaiting_runningTcb]
    rw [hrun]
    dsimp only
    rw [setState_withWaiting]
    rfl
  | exit v =>
    -- the thread that ends reads its own field, so here the two must agree
    refine ⟨update waiting r none, (hact _ hop).trans ?_, ?_⟩
    · exact (exit_withWaiting hrun (h.eq hra (hreg v rfl))).trans (congrArg (Option.map _) hcall)
    · have hexit := exit_spec hrun hcall
      intro t ha
      rw [hexit.mainTcb, hexit.joined, hexit.waitingThread, update_apply]
      split
      · rw [ite_self]
      · exact h t (hexit.allocated ▸ ha)
  -- the one call that stores the field
  | join thread =>
    obtain ⟨waiting', hjoin, hst⟩ := join_withWaiting h hrun hmain hcall
    exact ⟨waiting', (hact _ hop).trans hjoin, hst⟩
  | lock m =>
    exact ⟨waiting, (hact _ hop).trans (lockLoop_withWaiting.trans
      (congrArg (Option.map _) hcall)), h.lockLoop hcall⟩
  | unlock m =>
    exact ⟨waiting, (hact _ hop).trans (unlock_withWaiting.trans
      (congrArg (Option.map _) hcall)), h.unlock hcall⟩
  | mutexInit m =>
    obtain ⟨rfl, rfl⟩ := Prod.mk.inj (Option.some.inj hcall)
    exact ⟨waiting, hact _ hop, h⟩
  | mutexDestroy m =>
    obtain ⟨rfl, rfl⟩ := Prod.mk.inj (Option.some.inj hcall)
    exact ⟨waiting, hact _ hop, h⟩
  | create u fresh =>
    -- a new thread has its field cleared in the copy, whatever its memory held
    refine ⟨update waiting u none, (hact _ (by simp [Op.cleared])).trans ?_, h.create hcall⟩
    exact create_withWaiting.trans (congrArg (Option.map _) hcall)
  | createFails stack =>
    exact ⟨waiting, (hact _ hop).trans (createFails_withWaiting.trans
      (congrArg (Option.map _) hcall)), h.createFails hcall⟩

/-! ### Runs -/

@[simp] theorem queued_withWaiting : queued pol (s.withWaiting waiting) = queued pol s := by
  cases pol <;> rfl

/-- The scheduler does not read the field either. -/
theorem Scheduled.withWaiting {s' : State} {n : TcbPtr} (h : Scheduled pol s r s' n) :
    Scheduled pol (s.withWaiting waiting) r (s'.withWaiting waiting) n where
  queue := by
    rw [queued_withWaiting, queued_withWaiting]
    exact h.queue
  keeps :=
    { allocated := h.keeps.allocated
      table := h.keeps.table
      threadCount := h.keeps.threadCount
      nextThreadId := h.keeps.nextThreadId
      mutex := h.keeps.mutex
      mainTcb := h.keeps.mainTcb
      context := h.keeps.context
      same := fun p => ⟨(h.keeps.same p).id, (h.keeps.same p).retval, rfl, (h.keeps.same p).joined⟩
      state := h.keeps.state }
  runningTcb := h.runningTcb
  cpu := h.cpu

/-- Whether a thread would stop running does not depend on what `malloc` left. -/
theorem Relieved.withWaiting {op : Op} (h : Relieved pol s op) (hrun : s.runningTcb = some r)
    (hreg : ∀ v, op = .exit v → waiting r = (s.tcb r).waitingThread) :
    Relieved pol (s.withWaiting waiting) op.cleared := by
  have hstops : stops (s.withWaiting waiting) op.cleared = stops s op := by
    cases op with
    | exit v =>
      change (s.runningTcb.any fun r => (waiting r).isNone)
        = s.runningTcb.any fun r => (s.tcb r).waitingThread.isNone
      rw [hrun, Option.any_some, Option.any_some, hreg v rfl]
    | _ => rfl
  refine ⟨fun hstop => h.1 (hstops ▸ hstop), fun hyield => h.2 ⟨hyield.1, ?_⟩⟩
  have hop := hyield.2
  cases op <;> simp [Op.cleared] at hop ⊢

/-- The state is sound once the fields hold what `worker_join` has stored there. -/
def SoundStored (pol : Policy) (s : State) (waiting : TcbPtr → Option TcbPtr) (r : TcbPtr) : Prop :=
  Stored s waiting ∧ Sound (s.withWaiting waiting) (some r) (queued pol s)

theorem soundStored_init {fresh : Tcb} (h : IsInit s fresh) :
    SoundStored pol s (fun _ => none) s.mainTcb := by
  constructor
  · intro t ha
    rw [if_neg]
    exact fun hne => hne.1 ((h.allocated t).mp ha)
  · have hinit : IsInit (s.withWaiting fun _ => none) { fresh with waitingThread := none } := by
      refine ⟨?_, h.allocated, h.table, h.threadCount, h.nextThreadId, h.rrQueue, h.psjfHeap,
        h.mlfqLevels, h.cfsHeap, h.globalTicks, h.timer, h.mutex, h.runningTcb, h.context, h.cpu⟩
      rw [withWaiting_tcb, withWaiting_mainTcb, h.tcb]
      rfl
    have hsound : Sound (s.withWaiting fun _ => none) (some s.mainTcb)
        (queued pol (s.withWaiting fun _ => none)) := sound_init hinit rfl
    rwa [queued_withWaiting] at hsound

theorem soundStored_step {s' : State} {op : Op} {entry disp : ℤ} {reply : Reply}
    {switch : Option Switch} (h : SoundStored pol s waiting r) (hrel : Relieved pol s op)
    (hreg : ∀ v, op = .exit v → Registered s r)
    (hstep : step pol s op entry disp = some (s', reply, switch)) :
    ∃ waiting' n, SoundStored pol s' waiting' n := by
  obtain ⟨hst, hsound⟩ := h
  have hc := hsound.cpu r rfl
  -- the invariant is that of the copy, and its run queue is the same
  have hsound' : Sound (s.withWaiting waiting) (some r) (queued pol (s.withWaiting waiting)) := by
    rwa [queued_withWaiting]
  have hrel' : Relieved pol (s.withWaiting waiting) op.cleared :=
    hrel.withWaiting hc.2.1 fun v hv => hst.eq hc.2.2 (hreg v hv)
  have hok := hrel'.entryOk hsound'
  -- every call of the program is matched by a call of the copy
  have hacted : ∀ s₁ after, act pol s op = some (s₁, after) → ∃ waiting', Stored s₁ waiting' ∧
      act pol (s.withWaiting waiting) op.cleared = some (s₁.withWaiting waiting', after) ∧
      Acted pol (s.withWaiting waiting) r (s₁.withWaiting waiting') after := by
    intro s₁ after hact
    obtain ⟨waiting', hact', hst'⟩ := act_withWaiting hst hc.2.1 hc.2.2
      (fun t ht => (hsound.table t ht).2) hreg hact
    refine ⟨waiting', hst', hact', act_acted hsound' ?_ ?_ hact'⟩
    · intro u fresh hop
      cases op <;> simp [Op.cleared] at hop
      rw [← hop.2]
    · exact fun hpol hop => hrel'.2 ⟨hpol, hop⟩
  unfold step at hstep
  split at hstep
  · exact absurd hstep (by simp)
  · next s₁ reply' hact =>
    obtain ⟨rfl, -⟩ := Prod.mk.inj (Option.some.inj hstep)
    obtain ⟨waiting', hst', -, ha⟩ := hacted _ _ hact
    have hret := ha.ret _ rfl
    rw [queued_withWaiting] at hret
    exact ⟨waiting', r, hst', hret⟩
  · next s₁ why hact =>
    obtain ⟨waiting', hst', hact', ha⟩ := hacted _ _ hact
    obtain ⟨hrun, hpark, -⟩ := ha.enter why rfl
    -- a call that leaves the CPU goes through `schedule`, which keeps the field
    split at hstep
    · obtain ⟨⟨s₂, result⟩, hsched, heq⟩ := Option.map_eq_some_iff.mp hstep
      obtain ⟨rfl, -⟩ := Prod.mk.inj heq
      have hrun' : s₁.runningTcb = some r := hrun
      rcases schedule_spec hrun' hsched with ⟨n, rfl, hsch⟩ | ⟨hnone, hempty⟩
      · have hk := hsch.keeps
        have hsch' : Scheduled pol (s₁.withWaiting waiting') r (s₂.withWaiting waiting') n :=
          hsch.withWaiting
        have hsound₂ := hpark.schedule hsch'
        rw [queued_withWaiting] at hsound₂
        refine ⟨waiting', n, ?_, hsound₂.of_eq rfl rfl rfl rfl rfl rfl rfl rfl rfl⟩
        exact hst'.of_same (fun t ha => hk.allocated ▸ ha) hk.mainTcb fun t =>
          ⟨(hk.same t).joined, (hk.same t).waitingThread⟩
      -- falling back is excluded by what the condition says about the entry
      · rcases (hok _ why hact').1 with rfl | rfl | hready
        · exact absurd hnone (schedule_psjf_ne_none hsched)
        · exact absurd hnone (schedule_cfs_ne_none hsched)
        · have hne := hpark.ne_zero hrun hready
          rw [queued_withWaiting] at hne
          exact absurd hempty hne
    · exact absurd hstep (by simp)

/-- The runs in which a thread that stops running leaves another one ready, none yields under
MLFQ, and `worker_exit` is called only where the field has been stored, or is `NULL`. -/
abbrev registering (pol : Policy) : System State Label :=
  (library pol fun _ => True).restrict fun s l =>
    Relieved pol s l.op ∧ ∀ v, l.op = .exit v → Registered s s.cpu.who

theorem registering_sound {ls : List Label} (hr : Run (registering pol) ls s) :
    ∃ waiting r, SoundStored pol s waiting r := by
  refine hr.invariant (I := fun s => ∃ waiting r, SoundStored pol s waiting r) ?_ ?_
  · rintro s ⟨fresh, -, hinit⟩
    exact ⟨_, _, soundStored_init hinit⟩
  · rintro s l s' ⟨waiting, r, h⟩ ⟨⟨hstep, -⟩, hrel, hreg⟩
    have hwho : s.cpu.who = r := (h.2.cpu r rfl).1
    exact soundStored_step h hrel (hwho ▸ hreg) hstep

/-! ### Who is woken -/

/-- `w` is BLOCKED in `worker_join` for the thread `t`. -/
def InJoin (s : State) (t w : TcbPtr) : Prop :=
  s.allocated w = true ∧ (s.tcb w).state = .blocked ∧
    ∃ x, (s.context w).point = .joining (s.idOf t) x

/-- **Exit wakes exactly its joiner**: what `worker_exit` does to the others, from `s` to `s₁`,
when the thread `t` calls it. -/
structure WakesJoiner (pol : Policy) (s s₁ : State) (t : TcbPtr) : Prop where
  joiner : ∀ w, InJoin s t w → (s₁.tcb w).state = .ready ∧
    (queued pol s₁).count w = (queued pol s).count w + 1
  others : ∀ w, ¬ InJoin s t w → (queued pol s₁).count w = (queued pol s).count w ∧
    (w ≠ t → (s₁.tcb w).state = (s.tcb w).state)

/-- The thread that is blocked in a join for the running one is the one that has been stored. -/
theorem SoundStored.inJoin_iff {w : TcbPtr} (h : SoundStored pol s waiting r) :
    InJoin s r w ↔ waiting r = some w := by
  have hs := h.2
  have hc := hs.cpu r rfl
  have hrunning := (hs.running r hc.2.2).mpr rfl
  -- a blocked thread is not the one on the CPU, so that its context is current
  have hpoint : (s.tcb w).state = .blocked →
      (s.withWaiting waiting).pointOf (some r) w = (s.context w).point := by
    intro hb
    refine if_neg fun hrw => ?_
    obtain rfl := Option.some.inj hrw
    exact absurd (hrunning.symm.trans hb) (by decide)
  constructor
  · rintro ⟨ha, hb, x, hp⟩
    obtain ⟨hxa, -, hid, -, hwait, -⟩ := hs.joining w _ x ha ((hpoint hb).trans hp)
    obtain rfl : x = r := hs.ids x r hxa hc.2.2 hid
    exact hwait hb
  · intro hw
    obtain ⟨ha, hb, hp, -⟩ := hs.waiter r w hc.2.2 hw
    exact ⟨ha, hb, r, (hpoint hb).symm.trans hp⟩

/-- **When exit wakes exactly its joiner**: just when `waiting_thread` has been stored, or the
memory held `NULL` there. -/
theorem exit_wakes_joiner_iff {ls : List Label} {v : Value} (hr : Run (registering pol) ls s)
    (hact : act pol s (.exit v) = some (s₁, after)) :
    WakesJoiner pol s s₁ s.cpu.who ↔ Registered s s.cpu.who := by
  obtain ⟨waiting, r, h⟩ := registering_sound hr
  obtain ⟨hwho, hrun, hra⟩ := h.2.cpu r rfl
  change s.cpu.who = r at hwho
  change s.runningTcb = some r at hrun
  have hexit := exit_spec hrun (act_call (by simp) hact).2
  rw [hwho]
  constructor
  -- a field that was never stored but is not `NULL` wakes a thread that does not wait
  · intro hwakes
    by_contra hnot
    obtain ⟨hjoined, hne⟩ := not_or.mp hnot
    obtain ⟨w, hw⟩ := Option.ne_none_iff_exists'.mp hne
    have hnone : waiting r = none := (h.1 r hra).trans (if_neg hjoined)
    have hnotin : ¬ InJoin s r w := by
      rw [h.inJoin_iff, hnone]
      exact Option.some_ne_none w ∘ Eq.symm
    have hcount := (hwakes.others w hnotin).1
    rw [hexit.queue, if_pos hw] at hcount
    omega
  -- a stored field names just the thread that waits in `worker_join`
  · intro hreg
    have hin : ∀ w, InJoin s r w ↔ (s.tcb r).waitingThread = some w := by
      intro w
      rw [h.inJoin_iff, h.1.eq hra hreg]
    refine ⟨fun w hw => ?_, fun w hw => ?_⟩
    · rw [hexit.state, hexit.queue, if_pos ((hin w).mp hw), if_pos ((hin w).mp hw)]
      exact ⟨rfl, rfl⟩
    · rw [hin] at hw
      rw [hexit.state, hexit.queue, if_neg hw, if_neg hw]
      exact ⟨rfl, fun hne => if_neg hne⟩

end

/-- A block in which `waiting_thread` holds the address of the main thread. -/
def leftover : Tcb := { Tcb.zero with waitingThread := some 0 }

/-- The main thread waits for thread `1` before that ends. -/
def joinsFirst : List (Op × ℤ × ℤ) := [(.create 1 leftover, 0, 0), (.join 1, 0, 0)]

/-- In `joinsFirst` the main thread leaves thread `1` ready. -/
def LeavesChild (s : State) (op : Op) : Prop :=
  op ∈ joinsFirst.map Prod.fst ∧
    (stops s op = true → s.allocated 1 = true ∧ (s.tcb 1).state = .ready)

instance (s : State) (op : Op) : Decidable (LeavesChild s op) :=
  inferInstanceAs (Decidable (_ ∧ _))

theorem exit_wakes_joiner_joinsFirst : ∃ ls s s₁, Run (registering .rr) ls s ∧
    act .rr s (.exit 7) = some (s₁, .enter (.exited 7)) ∧ s.cpu.who = 1 ∧ Registered s 1 ∧
    (WakesJoiner .rr s s₁ s.cpu.who ↔ Registered s s.cpu.who) := by
  obtain ⟨ls, s, hperf, hmain, hjoined, hwho, s₁, hact⟩ : ∃ ls s,
      performIf LeavesChild .rr .first joinsFirst = some (ls, s) ∧ s.mainTcb = 0 ∧
      (s.tcb 1).joined = true ∧ s.cpu.who = 1 ∧
      ∃ s₁, act .rr s (.exit 7) = some (s₁, .enter (.exited 7)) :=
    ⟨_, _, rfl, rfl, rfl, rfl, _, rfl⟩
  have hstart : Run ((library .rr fun _ => True).restrict fun s l => LeavesChild s l.op) []
      State.first := .start ⟨Tcb.zero, trivial, State.first_isInit⟩
  have hr : Run (registering .rr) ls s := by
    refine (run_performIf hstart (by simp [joinsFirst, Op.Uses]) hperf).restrict_mono
      fun s l h => ⟨⟨fun hstop => ⟨1, h.2 hstop⟩, fun hyield => absurd hyield.1 (by decide)⟩, ?_⟩
    intro v hv
    have hmem := h.1
    rw [hv] at hmem
    exact absurd hmem (by simp [joinsFirst])
  have hreg : Registered s 1 := .inl ⟨by rw [hmain]; decide, hjoined⟩
  exact ⟨ls, s, s₁, hr, hact, hwho, hreg, exit_wakes_joiner_iff hr hact⟩

/-- **A thread that nobody waits for wakes another.** Thread `1` runs in the block `leftover`,
and its exit puts the main thread, which is in the run queue already, there once more. -/
theorem exit_wakes_unjoined : ¬ ∀ (pol : Policy) (ls : List Label) (s s₁ : State) (v : Value)
    (after : After), Run (library pol fun _ => True) ls s →
    act pol s (.exit v) = some (s₁, after) → WakesJoiner pol s s₁ s.cpu.who := by
  intro h
  obtain ⟨ls, s, hperf, hready, hq, s₁, hact, hq₁⟩ : ∃ ls s,
      performIf (fun _ _ => True) .rr .first [(.create 1 leftover, 0, 0), (.tick, 0, 0)]
        = some (ls, s) ∧ (s.tcb 0).state = .ready ∧ s.rrQueue = [0] ∧
      ∃ s₁, act .rr s (.exit 7) = some (s₁, .enter (.exited 7)) ∧ s₁.rrQueue = [0, 0] :=
    ⟨_, _, rfl, rfl, rfl, _, rfl, rfl⟩
  have hstart : Run ((library .rr fun _ => True).restrict fun _ _ => True) [] State.first :=
    .start ⟨Tcb.zero, trivial, State.first_isInit⟩
  have hr : Run (library .rr fun _ => True) ls s :=
    (run_performIf hstart (by simp [Op.Uses]) hperf).of_restrict
  have hnotin : ¬ InJoin s s.cpu.who 0 := by
    rintro ⟨-, hb, -⟩
    rw [hready] at hb
    exact absurd hb (by decide)
  have hcount := ((h .rr ls s s₁ 7 _ hr hact).others 0 hnotin).1
  change (s₁.rrQueue : Multiset TcbPtr).count 0 = (s.rrQueue : Multiset TcbPtr).count 0 at hcount
  rw [hq, hq₁] at hcount
  exact absurd hcount (by decide)

end Library

end ThreadWorker
