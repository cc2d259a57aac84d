import Cs416.Threads.RunQueue

/-!
# What the calls leave to the scheduler

The fields of a control block by which the policies choose are written by `worker_create` and by
the scheduler, and by nothing else. `act_called` says so for a call up to its `swapcontext`: it
keeps these fields (`SameKeys`) and adds at most one thread to the run queue (`Adds`).
-/

open Function

namespace ThreadWorker

namespace Library

/-- The fields by which the policies choose. -/
structure SameKeys (t t' : Tcb) : Prop where
  id : t'.id = t.id
  elapsedQuanta : t'.elapsedQuanta = t.elapsedQuanta
  priority : t'.priority = t.priority
  timeSlice : t'.timeSlice = t.timeSlice
  timeUsed : t'.timeUsed = t.timeUsed
  vruntime : t'.vruntime = t.vruntime
  lastStart : t'.lastStart = t.lastStart

theorem SameKeys.refl (t : Tcb) : SameKeys t t := ⟨rfl, rfl, rfl, rfl, rfl, rfl, rfl⟩

theorem SameKeys.trans {t₁ t₂ t₃ : Tcb} (h₁ : SameKeys t₁ t₂) (h₂ : SameKeys t₂ t₃) :
    SameKeys t₁ t₃ :=
  ⟨h₂.id.trans h₁.id, h₂.elapsedQuanta.trans h₁.elapsedQuanta, h₂.priority.trans h₁.priority,
    h₂.timeSlice.trans h₁.timeSlice, h₂.timeUsed.trans h₁.timeUsed, h₂.vruntime.trans h₁.vruntime,
    h₂.lastStart.trans h₁.lastStart⟩

/-- The calls between two states keep them. -/
def KeysKept (s s' : State) : Prop := ∀ t, SameKeys (s.tcb t) (s'.tcb t)

/-- The run queues. -/
structure SameQueues (s s' : State) : Prop where
  rrQueue : s'.rrQueue = s.rrQueue
  psjfHeap : s'.psjfHeap = s.psjfHeap
  mlfqLevels : s'.mlfqLevels = s.mlfqLevels
  cfsHeap : s'.cfsHeap = s.cfsHeap

/-- `p` is added to the run queues of `s`, with the control blocks of `s'`. -/
def Adds (pol : Policy) (s s' : State) (p : TcbPtr) : Prop :=
  ∃ s₂, addToScheduler pol { s with tcb := s'.tcb } p = some s₂ ∧ SameQueues s₂ s'

/-- What a call does up to its return or its `swapcontext`, as far as the scheduler is
concerned. -/
structure Called (pol : Policy) (s s' : State) : Prop where
  keys : ∀ t, s.allocated t = true → SameKeys (s.tcb t) (s'.tcb t)
  created : ∀ t, s.allocated t = false → s'.allocated t = true →
    ∃ fresh : Tcb, SameKeys (fresh.create s.nextThreadId) (s'.tcb t)
  queue : SameQueues s s' ∨ ∃ p, Adds pol s s' p
  next : s'.nextThreadId = s.nextThreadId ∨
    s'.nextThreadId = s.nextThreadId + 1 ∧ s.nextThreadId < 2 ^ 31 - 1
  clock : s'.clock = s.clock

section

variable {pol : Policy} {s s₁ s₂ : State} {op : Op} {after : After} {m : MutexPtr} {p r : TcbPtr}
  {thread : ℕ} {v : Value}

theorem KeysKept.of_eq (h : s₁.tcb = s.tcb) : KeysKept s s₁ := fun t => by
  rw [h]
  exact .refl _

theorem KeysKept.trans (h₁ : KeysKept s s₁) (h₂ : KeysKept s₁ s₂) : KeysKept s s₂ :=
  fun t => (h₁ t).trans (h₂ t)

/-- Storing a control block. -/
theorem keysKept_setTcb {t : Tcb} (h : SameKeys (s.tcb r) t) : KeysKept s (s.setTcb r t) := by
  intro q
  simp only [State.setTcb, update_apply]
  split
  · next hq =>
    rw [hq]
    exact h
  · exact .refl _

theorem keysKept_setState (s : State) (r : TcbPtr) (st : ThreadState) :
    KeysKept s (s.setState r st) :=
  keysKept_setTcb ⟨rfl, rfl, rfl, rfl, rfl, rfl, rfl⟩

theorem keysKept_waitingThread (s : State) (r : TcbPtr) (w : Option TcbPtr) :
    KeysKept s (s.setTcb r { s.tcb r with waitingThread := w }) :=
  keysKept_setTcb ⟨rfl, rfl, rfl, rfl, rfl, rfl, rfl⟩

theorem keysKept_addToScheduler (h : addToScheduler pol s p = some s₁) : KeysKept s s₁ := by
  obtain ⟨⟨rr, psjf, mlfq, cfs, rfl⟩, -⟩ := addToScheduler_spec h
  exact .of_eq rfl

theorem psjfCmp_eq (h : KeysKept s s₁) : psjfCmp s₁.tcb = psjfCmp s.tcb := by
  funext a b
  simp only [psjfCmp, keyCmp, (h a).id, (h b).id, (h a).elapsedQuanta, (h b).elapsedQuanta]

theorem cfsCmp_eq (h : KeysKept s s₁) : cfsCmp s₁.tcb = cfsCmp s.tcb := by
  funext a b
  simp only [cfsCmp, keyCmp, (h a).id, (h b).id, (h a).vruntime, (h b).vruntime]

/-- `add_to_scheduler` looks at nothing else. -/
theorem adds_of_addToScheduler (h : addToScheduler pol s₁ p = some s₂) {s' : State}
    (hs : SameQueues s s₁) (hkeys : KeysKept s₁ s') (hq : SameQueues s₂ s') :
    Adds pol s s' p := by
  unfold Adds
  -- each policy changes its own queue and compares keys that were kept
  cases pol with
  | psjf =>
    obtain ⟨heap, hpush, rfl⟩ := Option.map_eq_some_iff.mp h
    refine ⟨{ s with tcb := s'.tcb, psjfHeap := heap }, ?_, hq.rrQueue.trans hs.rrQueue,
      hq.psjfHeap, hq.mlfqLevels.trans hs.mlfqLevels, hq.cfsHeap.trans hs.cfsHeap⟩
    rw [hs.psjfHeap, ← psjfCmp_eq hkeys] at hpush
    exact Option.map_eq_some_iff.mpr ⟨heap, hpush, rfl⟩
  | mlfq =>
    rw [addToScheduler] at h
    split at h
    · next hlevel =>
      obtain rfl := Option.some.inj h
      refine ⟨{ s with tcb := s'.tcb, mlfqLevels := s'.mlfqLevels }, ?_,
        hq.rrQueue.trans hs.rrQueue, hq.psjfHeap.trans hs.psjfHeap, rfl,
        hq.cfsHeap.trans hs.cfsHeap⟩
      rw [addToScheduler]
      dsimp only
      rw [(hkeys p).priority, if_pos hlevel, hq.mlfqLevels, hs.mlfqLevels]
    · exact absurd h (by simp)
  | cfs =>
    obtain ⟨heap, hpush, rfl⟩ := Option.map_eq_some_iff.mp h
    refine ⟨{ s with tcb := s'.tcb, cfsHeap := heap }, ?_, hq.rrQueue.trans hs.rrQueue,
      hq.psjfHeap.trans hs.psjfHeap, hq.mlfqLevels.trans hs.mlfqLevels, hq.cfsHeap⟩
    rw [hs.cfsHeap, ← cfsCmp_eq hkeys] at hpush
    exact Option.map_eq_some_iff.mpr ⟨heap, hpush, rfl⟩
  | rr =>
    obtain rfl := Option.some.inj h
    refine ⟨{ s with tcb := s'.tcb, rrQueue := s'.rrQueue }, ?_, rfl,
      hq.psjfHeap.trans hs.psjfHeap, hq.mlfqLevels.trans hs.mlfqLevels,
      hq.cfsHeap.trans hs.cfsHeap⟩
    rw [addToScheduler, hq.rrQueue, ← hs.rrQueue]

/-- A call that creates no thread. -/
theorem called_of_keys (hkeys : KeysKept s s₁)
    (halloc : ∀ t, s₁.allocated t = true → s.allocated t = true)
    (hqueue : SameQueues s s₁ ∨ ∃ p, Adds pol s s₁ p) (hnext : s₁.nextThreadId = s.nextThreadId)
    (hclock : s₁.clock = s.clock) : Called pol s s₁ where
  keys t _ := hkeys t
  created t hf ht := absurd (halloc t ht) (by rw [hf]; decide)
  queue := hqueue
  next := .inl hnext
  clock := hclock

/-- A call that leaves the run queue alone, too. -/
theorem called_of_queues (hkeys : KeysKept s s₁)
    (halloc : ∀ t, s₁.allocated t = true → s.allocated t = true) (hqueue : SameQueues s s₁)
    (hnext : s₁.nextThreadId = s.nextThreadId) (hclock : s₁.clock = s.clock) :
    Called pol s s₁ :=
  called_of_keys hkeys halloc (.inl hqueue) hnext hclock

theorem called_refl (s : State) : Called pol s s :=
  called_of_queues (.of_eq rfl) (fun _ ht => ht) ⟨rfl, rfl, rfl, rfl⟩ rfl rfl

/-- `worker_mutex_lock` wakes nobody. -/
theorem lockLoop_queues (he : lockLoop s m = some (s₁, after)) :
    KeysKept s s₁ ∧ s₁.allocated = s.allocated ∧ SameQueues s s₁ ∧
      s₁.nextThreadId = s.nextThreadId ∧ s₁.clock = s.clock := by
  unfold lockLoop at he
  dsimp only at he
  split at he
  · split at he
    · exact absurd he (by simp)
    · next r _ =>
      obtain ⟨rfl, -⟩ := Prod.mk.inj (Option.some.inj he)
      split
      · exact ⟨keysKept_setState s r .blocked, rfl, ⟨rfl, rfl, rfl, rfl⟩, rfl, rfl⟩
      · exact ⟨.of_eq rfl, rfl, ⟨rfl, rfl, rfl, rfl⟩, rfl, rfl⟩
  · obtain ⟨rfl, -⟩ := Prod.mk.inj (Option.some.inj he)
    exact ⟨.of_eq rfl, rfl, ⟨rfl, rfl, rfl, rfl⟩, rfl, rfl⟩

theorem unlock_called (he : unlock pol s m = some (s₁, after)) : Called pol s s₁ := by
  unfold unlock at he
  dsimp only at he
  split at he
  · obtain ⟨rfl, -⟩ := Prod.mk.inj (Option.some.inj he)
    exact called_refl s
  split at he
  · obtain ⟨rfl, -⟩ := Prod.mk.inj (Option.some.inj he)
    exact called_of_queues (.of_eq rfl) (fun _ ht => ht) ⟨rfl, rfl, rfl, rfl⟩ rfl rfl
  · next w rest _ =>
    obtain ⟨s₂, hadd, heq⟩ := Option.map_eq_some_iff.mp he
    obtain ⟨rfl, -⟩ := Prod.mk.inj heq
    have hset : KeysKept s ((s.setMutex m ⟨false, none, rest⟩).setState w .ready) :=
      keysKept_setState (s.setMutex m ⟨false, none, rest⟩) w .ready
    have hkeys : KeysKept s s₂ := hset.trans (keysKept_addToScheduler hadd)
    have hqueue : Adds pol s s₂ w :=
      adds_of_addToScheduler hadd ⟨rfl, rfl, rfl, rfl⟩ (keysKept_addToScheduler hadd)
        ⟨rfl, rfl, rfl, rfl⟩
    obtain ⟨⟨rr, psjf, mlfq, cfs, rfl⟩, -⟩ := addToScheduler_spec hadd
    exact called_of_keys hkeys (fun _ ht => ht) (.inr ⟨w, hqueue⟩) rfl rfl

theorem exit_called (he : exit pol s v = some (s₁, after)) : Called pol s s₁ := by
  unfold exit at he
  split at he
  · exact absurd he (by simp)
  next r _ =>
  have hends : KeysKept s (s.setTcb r { s.tcb r with state := .terminated, retval := v }) :=
    keysKept_setTcb ⟨rfl, rfl, rfl, rfl, rfl, rfl, rfl⟩
  dsimp only at he
  split at he
  · obtain ⟨rfl, -⟩ := Prod.mk.inj (Option.some.inj he)
    exact called_of_queues hends (fun _ ht => ht) ⟨rfl, rfl, rfl, rfl⟩ rfl rfl
  · next w _ =>
    obtain ⟨s₂, hadd, heq⟩ := Option.map_eq_some_iff.mp he
    obtain ⟨rfl, -⟩ := Prod.mk.inj heq
    have hlast : KeysKept s₂
        ((s₂.setTcb r { s₂.tcb r with waitingThread := none }).save r .exited) :=
      keysKept_waitingThread s₂ r none
    have hkept := keysKept_addToScheduler hadd
    have hkeys := (hends.trans (keysKept_setState _ w .ready)).trans (hkept.trans hlast)
    have hqueue := adds_of_addToScheduler (s := s) hadd ⟨rfl, rfl, rfl, rfl⟩ (hkept.trans hlast)
      ⟨rfl, rfl, rfl, rfl⟩
    obtain ⟨⟨rr, psjf, mlfq, cfs, rfl⟩, -⟩ := addToScheduler_spec hadd
    exact called_of_keys hkeys (fun _ ht => ht) (.inr ⟨w, hqueue⟩) rfl rfl

theorem cleanupThread_called {s' : State} (hkeys : KeysKept s s') (halloc : s'.allocated = s.allocated)
    (hqueue : SameQueues s s') (hnext : s'.nextThreadId = s.nextThreadId)
    (hclock : s'.clock = s.clock) (p : TcbPtr) : Called pol s (s'.cleanupThread p) := by
  refine called_of_queues hkeys (fun t ht => ?_) ⟨hqueue.rrQueue, hqueue.psjfHeap,
    hqueue.mlfqLevels, hqueue.cfsHeap⟩ hnext hclock
  simp only [State.cleanupThread, update_apply, halloc] at ht
  grind

theorem join_called (he : join s thread = some (s₁, after)) : Called pol s s₁ := by
  -- no such thread: nothing has happened
  unfold join at he
  split at he
  · obtain ⟨rfl, -⟩ := Prod.mk.inj (Option.some.inj he)
    exact called_refl s
  next x _ =>
  split at he
  · exact absurd he (by simp)
  next r _ =>
  -- `joined` is set before anything else
  have hmark : KeysKept s (s.setTcb x { s.tcb x with joined := true }) :=
    keysKept_setTcb ⟨rfl, rfl, rfl, rfl, rfl, rfl, rfl⟩
  split at he
  · obtain ⟨rfl, -⟩ := Prod.mk.inj (Option.some.inj he)
    exact called_refl s
  split at he
  · obtain ⟨rfl, -⟩ := Prod.mk.inj (Option.some.inj he)
    exact called_refl s
  dsimp only at he
  -- the target has ended and is freed, or the caller waits
  split at he
  · obtain ⟨rfl, -⟩ := Prod.mk.inj (Option.some.inj he)
    exact cleanupThread_called hmark rfl ⟨rfl, rfl, rfl, rfl⟩ rfl rfl x
  · obtain ⟨rfl, -⟩ := Prod.mk.inj (Option.some.inj he)
    have hwaits := (hmark.trans (keysKept_setState _ r .blocked)).trans
      (keysKept_waitingThread _ x (some r))
    exact called_of_queues hwaits (fun _ ht => ht) ⟨rfl, rfl, rfl, rfl⟩ rfl rfl

theorem create_called {u : TcbPtr} {fresh : Tcb} (he : create pol s u fresh = some (s₁, after)) :
    Called pol s s₁ := by
  unfold create at he
  split at he
  · next hu =>
    dsimp only at he
    obtain ⟨s₂, hadd, heq⟩ := Option.map_eq_some_iff.mp he
    obtain ⟨rfl, -⟩ := Prod.mk.inj heq
    -- the new thread is queued in a state that differs from `s` outside the queues
    have hqueue := adds_of_addToScheduler (s := s) hadd ⟨rfl, rfl, rfl, rfl⟩
      (keysKept_addToScheduler hadd) ⟨rfl, rfl, rfl, rfl⟩
    obtain ⟨⟨rr, psjf, mlfq, cfs, rfl⟩, -⟩ := addToScheduler_spec hadd
    refine ⟨fun t ht => ?_, fun t hf ht => ⟨fresh, ?_⟩, .inr ⟨u, hqueue⟩, .inr ⟨rfl, hu.2⟩, rfl⟩
    -- the new block was not allocated, so the old ones are untouched
    · have hne : t ≠ u := by
        rintro rfl
        exact absurd (ht.symm.trans hu.1) (by decide)
      change SameKeys (s.tcb t) (update s.tcb u (fresh.create s.nextThreadId) t)
      rw [update_of_ne hne]
      exact .refl _
    · have htu : t = u := by
        by_contra hne
        have hsame : update s.allocated u true t = s.allocated t := update_of_ne hne _ _
        exact absurd ((hsame.symm.trans ht).symm.trans hf) (by decide)
      change SameKeys (fresh.create s.nextThreadId)
        (update s.tcb u (fresh.create s.nextThreadId) t)
      rw [htu, update_self]
      exact .refl _
  · exact absurd he (by simp)

theorem createFails_called {stack : Bool} (he : createFails s stack = some (s₁, after)) :
    Called pol s s₁ := by
  unfold createFails at he
  split at he
  · split at he
    · next hnext =>
      obtain ⟨rfl, -⟩ := Prod.mk.inj (Option.some.inj he)
      exact ⟨fun _ _ => .refl _, fun t hf ht => absurd (hf.symm.trans ht) (by decide),
        .inl ⟨rfl, rfl, rfl, rfl⟩, .inr ⟨rfl, hnext⟩, rfl⟩
    · exact absurd he (by simp)
  · obtain ⟨rfl, -⟩ := Prod.mk.inj (Option.some.inj he)
    exact called_refl s

theorem resume_called (he : resume s = some (s₁, after)) : Called pol s s₁ := by
  unfold resume at he
  split at he
  · exact absurd he (by simp)
  · next m _ =>
    obtain ⟨hkeys, halloc, hq, hnext, hclock⟩ := lockLoop_queues he
    exact called_of_queues hkeys (fun t ht => halloc ▸ ht)
      ⟨hq.rrQueue, hq.psjfHeap, hq.mlfqLevels, hq.cfsHeap⟩ hnext hclock
  · obtain ⟨rfl, -⟩ := Prod.mk.inj (Option.some.inj he)
    have huser : KeysKept s { s with cpu := ⟨s.cpu.who, .user⟩ } := .of_eq rfl
    exact cleanupThread_called huser rfl ⟨rfl, rfl, rfl, rfl⟩ rfl rfl _
  · obtain ⟨rfl, -⟩ := Prod.mk.inj (Option.some.inj he)
    exact called_of_queues (.of_eq rfl) (fun _ ht => ht) ⟨rfl, rfl, rfl, rfl⟩ rfl rfl

/-- **What a call leaves to the scheduler.** -/
theorem act_called (he : act pol s op = some (s₁, after)) : Called pol s s₁ := by
  -- one lemma for each call
  by_cases hres : op = .resume
  · subst hres
    exact resume_called (act_resume he)
  replace he := (act_call hres he).2
  cases op with
  | resume => exact absurd rfl hres
  | tick =>
    unfold call at he
    dsimp only at he
    split at he
    all_goals
      obtain ⟨rfl, -⟩ := Prod.mk.inj (Option.some.inj he)
      exact called_of_queues (.of_eq rfl) (fun _ ht => ht) ⟨rfl, rfl, rfl, rfl⟩ rfl rfl
  | yield =>
    unfold call at he
    dsimp only at he
    split at he
    · obtain ⟨rfl, -⟩ := Prod.mk.inj (Option.some.inj he)
      exact called_refl s
    · next r _ =>
      obtain ⟨rfl, -⟩ := Prod.mk.inj (Option.some.inj he)
      exact called_of_queues (keysKept_setState s r .ready) (fun _ ht => ht)
        ⟨rfl, rfl, rfl, rfl⟩ rfl rfl
  | exit v => exact exit_called he
  | join thread => exact join_called he
  | lock m =>
    obtain ⟨hkeys, halloc, hq, hnext, hclock⟩ := lockLoop_queues he
    exact called_of_queues hkeys (fun t ht => halloc ▸ ht) hq hnext hclock
  | unlock m => exact unlock_called he
  | mutexInit m =>
    obtain ⟨rfl, -⟩ := Prod.mk.inj (Option.some.inj he)
    exact called_of_queues (.of_eq rfl) (fun _ ht => ht) ⟨rfl, rfl, rfl, rfl⟩ rfl rfl
  | mutexDestroy m =>
    obtain ⟨rfl, -⟩ := Prod.mk.inj (Option.some.inj he)
    exact called_refl s
  | create u fresh => exact create_called he
  | createFails stack => exact createFails_called he

end

end Library

end ThreadWorker
