import Cs416.Threads.Sound

/-!
# Runs in which the threads stay sound

`Sound` is kept by every step that enters the scheduler with some thread ready, unless a thread
yields under MLFQ (`EntryOk`). `Acted` says what a call does up to its `swapcontext`, and
`sound_step` puts it together with `schedule_spec`; the results about joins and about the run
queue are read off it.
-/

open Function Lts

namespace ThreadWorker

namespace Library

/-- Some thread is ready to run, when the one on the CPU is preempted or yields. -/
def SomeReady (s : State) : Prop :=
  ∃ t, s.allocated t = true ∧
    ((s.tcb t).state = .ready ∨ s.runningTcb = some t ∧ (s.tcb t).state = .running)

/-- If the step enters the scheduler, some thread is ready to run there, and under MLFQ it does
not enter the scheduler by `worker_yield`. The policies with a heap have no fallback. -/
def EntryOk (pol : Policy) (s : State) (op : Op) : Prop :=
  ∀ s₁ why, act pol s op = some (s₁, .enter why) →
    (pol = .psjf ∨ pol = .cfs ∨ SomeReady s₁) ∧ ¬ (pol = .mlfq ∧ why = .yielded)

/-- Why the call enters the scheduler. -/
def Op.Leaves : Op → Leave → Prop
  | .tick, why => why = .preempted
  | .yield, why => why = .yielded
  | .exit v, why => why = .exited v
  | .join _, why | .lock _, why | .resume, why => why = .blocked
  | _, _ => False

section

variable {pol : Policy} {s s₁ : State} {op : Op} {why : Leave} {m : MutexPtr}

theorem lockLoop_leaves (he : lockLoop s m = some (s₁, .enter why)) : why = .blocked := by
  unfold lockLoop at he
  dsimp only at he
  split at he
  · split at he
    · exact absurd he (by simp)
    · exact (After.enter.inj (congrArg Prod.snd (Option.some.inj he))).symm
  · exact absurd (congrArg Prod.snd (Option.some.inj he)) (by simp)

theorem exit_leaves {v : Value} (he : exit pol s v = some (s₁, .enter why)) :
    why = .exited v := by
  unfold exit at he
  dsimp only at he
  split at he
  · exact absurd he (by simp)
  split at he
  · exact (After.enter.inj (congrArg Prod.snd (Option.some.inj he))).symm
  · obtain ⟨s₂, -, heq⟩ := Option.map_eq_some_iff.mp he
    exact (After.enter.inj (congrArg Prod.snd heq)).symm

theorem join_leaves {thread : ℕ} (he : join s thread = some (s₁, .enter why)) :
    why = .blocked := by
  unfold join at he
  dsimp only at he
  split at he
  · exact absurd (congrArg Prod.snd (Option.some.inj he)) (by simp)
  split at he
  · exact absurd he (by simp)
  split at he
  · exact absurd (congrArg Prod.snd (Option.some.inj he)) (by simp)
  split at he
  · exact absurd (congrArg Prod.snd (Option.some.inj he)) (by simp)
  split at he
  · exact absurd (congrArg Prod.snd (Option.some.inj he)) (by simp)
  · exact (After.enter.inj (congrArg Prod.snd (Option.some.inj he))).symm

theorem unlock_leaves : unlock pol s m ≠ some (s₁, .enter why) := by
  intro he
  unfold unlock at he
  dsimp only at he
  split at he
  · exact absurd (congrArg Prod.snd (Option.some.inj he)) (by simp)
  split at he
  · exact absurd (congrArg Prod.snd (Option.some.inj he)) (by simp)
  · obtain ⟨s₂, -, heq⟩ := Option.map_eq_some_iff.mp he
    exact absurd (congrArg Prod.snd heq) (by simp)

theorem create_leaves {u : TcbPtr} {fresh : Tcb} :
    create pol s u fresh ≠ some (s₁, .enter why) := by
  intro he
  unfold create at he
  split at he
  · obtain ⟨s₂, -, heq⟩ := Option.map_eq_some_iff.mp he
    exact absurd (congrArg Prod.snd heq) (by simp)
  · exact absurd he (by simp)

theorem createFails_leaves {stack : Bool} : createFails s stack ≠ some (s₁, .enter why) := by
  intro he
  unfold createFails at he
  split at he
  · split at he
    · exact absurd (congrArg Prod.snd (Option.some.inj he)) (by simp)
    · exact absurd he (by simp)
  · exact absurd (congrArg Prod.snd (Option.some.inj he)) (by simp)

theorem resume_leaves (he : resume s = some (s₁, .enter why)) : why = .blocked := by
  unfold resume at he
  split at he
  · exact absurd he (by simp)
  · exact lockLoop_leaves he
  · exact absurd (congrArg Prod.snd (Option.some.inj he)) (by simp)
  · exact absurd (congrArg Prod.snd (Option.some.inj he)) (by simp)

theorem act_leaves (he : act pol s op = some (s₁, .enter why)) : op.Leaves why := by
  by_cases hres : op = .resume
  · subst hres
    exact resume_leaves (act_resume he)
  replace he := (act_call hres he).2
  cases op with
  | resume => exact absurd rfl hres
  | tick | yield =>
    unfold call at he
    dsimp only at he
    split at he
    · exact absurd (congrArg Prod.snd (Option.some.inj he)) (by simp)
    · exact (After.enter.inj (congrArg Prod.snd (Option.some.inj he))).symm
  | exit v => exact exit_leaves he
  | join thread => exact join_leaves he
  | lock m => exact lockLoop_leaves he
  | unlock m => exact absurd he unlock_leaves
  | mutexInit m => exact absurd (congrArg Prod.snd (Option.some.inj he)) (by simp)
  | mutexDestroy m => exact absurd (congrArg Prod.snd (Option.some.inj he)) (by simp)
  | create u fresh => exact absurd he create_leaves
  | createFails stack => exact absurd he createFails_leaves

/-- Only `worker_exit` ends a thread. -/
theorem Op.Leaves.exited {v : Value} (h : op.Leaves (.exited v)) : op = .exit v := by
  cases op <;> simp [Op.Leaves] at h
  rw [h]

theorem act_yield {r : TcbPtr} {after : After} (hrun : s.runningTcb = some r)
    (he : act pol s .yield = some (s₁, after)) : after = .enter .yielded := by
  replace he := (act_call (by simp) he).2
  unfold call at he
  rw [hrun] at he
  exact (congrArg Prod.snd (Option.some.inj he)).symm

end

/-- The state in which the thread enters the scheduler. -/
def Leave.state : Leave → ThreadState
  | .preempted => .running
  | .yielded => .ready
  | .blocked => .blocked
  | .exited _ => .terminated

/-- What a call of the thread `r` does, up to its return or its `swapcontext`. -/
structure Acted (pol : Policy) (s : State) (r : TcbPtr) (s₁ : State) (after : After) : Prop where
  ret : ∀ reply, after = .ret reply → Sound s₁ (some r) (queued pol s₁)
  enter : ∀ why, after = .enter why → s₁.runningTcb = some r ∧ Parked pol s₁ r ∧
    s₁.allocated = s.allocated ∧ s₁.nextThreadId = s.nextThreadId ∧ s₁.stateOf r = why.state
  /-- A thread that has ended had ended before, or ends now. -/
  ended : ∀ t, s₁.allocated t = true → (s₁.tcb t).state = .terminated →
    (s.allocated t = true ∧ (s.tcb t).state = .terminated ∧ (s₁.tcb t).id = (s.tcb t).id ∧
      (s₁.tcb t).retval = (s.tcb t).retval) ∨
    (t = r ∧ (s₁.tcb t).id = (s.tcb t).id ∧ after = .enter (.exited (s₁.tcb t).retval))
  /-- A thread that has not ended had not ended before, or is new. -/
  alive : ∀ t, s₁.allocated t = true → (s₁.tcb t).state ≠ .terminated →
    (s.allocated t = true ∧ (s.tcb t).state ≠ .terminated ∧ (s₁.tcb t).id = (s.tcb t).id) ∨
    (s₁.tcb t).id = s.nextThreadId
  exits : ∀ v, after = .enter (.exited v) → s₁.allocated r = true ∧
    (s₁.tcb r).state = .terminated ∧ (s₁.tcb r).id = (s.tcb r).id
  next : s.nextThreadId ≤ s₁.nextThreadId
  /-- A join returns the value of a thread that has ended. -/
  joined : ∀ thread v, after = .ret (.joined thread v) → ∃ x, s.allocated x = true ∧
    (s.tcb x).state = .terminated ∧ (s.tcb x).id = thread ∧ (s.tcb x).retval = v
  /-- Only threads that have ended are freed. -/
  freed : ∀ t, s.allocated t = true → s₁.allocated t = false → (s.tcb t).state = .terminated

section

variable {pol : Policy} {s s₁ : State} {r x : TcbPtr} {after : After} {m : MutexPtr} {v : Value}
  {thread : ℕ}

/-- The fields that `Sound` is about. -/
theorem Sound.of_eq {s' : State} {cur : Option TcbPtr} {q : Multiset TcbPtr} (h : Sound s cur q)
    (htcb : s'.tcb = s.tcb) (halloc : s'.allocated = s.allocated) (htable : s'.table = s.table)
    (hnext : s'.nextThreadId = s.nextThreadId) (hmutex : s'.mutex = s.mutex)
    (hmain : s'.mainTcb = s.mainTcb) (hrun : s'.runningTcb = s.runningTcb)
    (hctx : s'.context = s.context) (hcpu : s'.cpu = s.cpu) : Sound s' cur q := by
  cases s
  cases s'
  dsimp only at *
  subst htcb halloc htable hnext hmutex hmain hrun hctx hcpu
  exact ⟨h.who, h.cpu, h.running, h.queue, h.wait, h.waitOnce, h.waiter, h.joining, h.joinOnce,
    h.ids, h.fresh, h.main, h.table, h.tableOnce⟩

/-- A call that returns and leaves the control blocks alone. -/
theorem acted_of_tcb (hs : Sound s₁ (some r) (queued pol s₁)) (htcb : s₁.tcb = s.tcb)
    (halloc : s₁.allocated = s.allocated) (hnext : s.nextThreadId ≤ s₁.nextThreadId) (reply : Reply)
    (hreply : ∀ thread v, reply ≠ .joined thread v) : Acted pol s r s₁ (.ret reply) where
  ret _ _ := hs
  enter why h := absurd h (by simp)
  ended t ha ht := by
    rw [halloc] at ha
    rw [htcb] at ht ⊢
    exact .inl ⟨ha, ht, rfl, rfl⟩
  alive t ha ht := by
    rw [halloc] at ha
    rw [htcb] at ht ⊢
    exact .inl ⟨ha, ht, rfl⟩
  exits _ h := absurd h (by simp)
  next := hnext
  joined thread v h := absurd (After.ret.inj h) (hreply thread v)
  freed t ha hf := by
    rw [halloc, ha] at hf
    exact absurd hf (by decide)

theorem setState_self (s : State) (r : TcbPtr) : s.setState r (s.stateOf r) = s := by
  have h : ({ s.tcb r with state := s.stateOf r } : Tcb) = s.tcb r := rfl
  unfold State.setState State.setTcb
  rw [h, update_eq_self]

/-- A thread that is blocked or has ended is not put back. -/
theorem parked_of_sound (h : Sound s none (queued pol s))
    (hst : s.stateOf r = .blocked ∨ s.stateOf r = .terminated) : Parked pol s r := by
  have hsettled : settled (s.stateOf r) = s.stateOf r := by
    rcases hst with hst | hst <;> rw [hst] <;> rfl
  have hadd : requeued pol r (s.stateOf r) = 0 := by
    rcases hst with hst | hst <;> rw [hst] <;> rfl
  unfold Parked
  rw [hsettled, setState_self, hadd, add_zero]
  exact h

/-- A call that leaves the CPU. -/
theorem acted_of_enter {why : Leave} (hrun : s₁.runningTcb = some r) (hp : Parked pol s₁ r)
    (halloc : s₁.allocated = s.allocated)
    (hended : ∀ t, (s₁.tcb t).state = .terminated →
      ((s.tcb t).state = .terminated ∧ (s₁.tcb t).id = (s.tcb t).id ∧
        (s₁.tcb t).retval = (s.tcb t).retval) ∨
      (t = r ∧ (s₁.tcb t).id = (s.tcb t).id ∧ why = .exited (s₁.tcb t).retval))
    (halive : ∀ t, (s₁.tcb t).id = (s.tcb t).id ∧
      ((s₁.tcb t).state ≠ .terminated → (s.tcb t).state ≠ .terminated))
    (hexits : ∀ v, why = .exited v → s.allocated r = true ∧ (s₁.tcb r).state = .terminated)
    (hnext : s₁.nextThreadId = s.nextThreadId) (hstate : s₁.stateOf r = why.state) :
    Acted pol s r s₁ (.enter why) where
  -- the call leaves the CPU, so it returns nothing
  ret _ h := absurd h (by simp)
  enter _ h := by
    obtain rfl := After.enter.inj h
    exact ⟨hrun, hp, halloc, hnext, hstate⟩
  -- a thread that has ended had ended before, or is the one that leaves
  ended t ha ht := by
    rw [halloc] at ha
    rcases hended t ht with h | ⟨rfl, hid, rfl⟩
    · exact .inl ⟨ha, h⟩
    · exact .inr ⟨rfl, hid, rfl⟩
  alive t ha ht := by
    rw [halloc] at ha
    exact .inl ⟨ha, (halive t).2 ht, (halive t).1⟩
  exits v h := by
    obtain ⟨ha, ht⟩ := hexits v (After.enter.inj h)
    rw [halloc]
    exact ⟨ha, ht, (halive r).1⟩
  next := hnext.ge
  joined _ _ h := absurd h (by simp)
  freed t ha hf := by
    rw [halloc, ha] at hf
    exact absurd hf (by decide)

theorem lockLoop_acted (h : Sound s (some r) (queued pol s)) (he : lockLoop s m = some (s₁, after)) :
    Acted pol s r s₁ after := by
  have hrun := (h.cpu r rfl).2.1
  have hst := (h.running r (h.cpu r rfl).2.2).mpr rfl
  unfold lockLoop at he
  dsimp only at he
  split at he
  · rw [hrun] at he
    dsimp only at he
    rw [if_pos (by rw [hst]; decide)] at he
    obtain ⟨rfl, rfl⟩ := Prod.mk.inj (Option.some.inj he)
    refine acted_of_enter hrun (parked_of_sound (h.waits m) (.inl ?_)) rfl (fun t ht => .inl ?_)
      (fun t => ?_) (fun _ hv => absurd hv (by simp)) rfl
      (congrArg Tcb.state (update_self r _ s.tcb))
    · exact congrArg Tcb.state (update_self r _ s.tcb)
    · simp only [State.setState, State.setTcb, State.setMutex, State.save, update_apply] at ht ⊢
      grind
    · simp only [State.setState, State.setTcb, State.setMutex, State.save, update_apply]
      grind
  · obtain ⟨rfl, rfl⟩ := Prod.mk.inj (Option.some.inj he)
    have hs : Sound (s.setMutex m { s.mutex m with locked := true, ownerTcb := s.runningTcb })
        (some r) (queued pol s) := h.setMutex m (.inl rfl)
    exact acted_of_tcb (s := s) hs rfl rfl le_rfl (.code 0) fun _ _ => by simp

theorem exit_acted (h : Sound s (some r) (queued pol s)) (he : exit pol s v = some (s₁, after)) :
    Acted pol s r s₁ after := by
  have hrun := (h.cpu r rfl).2.1
  unfold exit at he
  rw [hrun] at he
  have hself : (s.setTcb r { s.tcb r with state := .terminated, retval := v }).tcb r
      = { s.tcb r with state := .terminated, retval := v } := update_self _ _ _
  dsimp only at he
  rw [hself] at he
  dsimp only at he
  split at he
  · next hw =>
    obtain ⟨rfl, rfl⟩ := Prod.mk.inj (Option.some.inj he)
    refine acted_of_enter hrun (parked_of_sound ((h.ends hw v).of_eq rfl rfl rfl rfl rfl rfl rfl
      rfl rfl) (.inr ?_)) rfl (fun t ht => ?_) (fun t => ?_)
      (fun _ _ => ⟨(h.cpu r rfl).2.2, ?_⟩) rfl (congrArg Tcb.state hself)
    · exact congrArg Tcb.state hself
    · simp only [State.setTcb, State.save, update_apply] at ht ⊢
      grind
    · simp only [State.setTcb, State.save, update_apply]
      grind
    · exact congrArg Tcb.state hself
  · next w hw =>
    obtain ⟨s₂, hadd, heq⟩ := Option.map_eq_some_iff.mp he
    obtain ⟨hs₁, rfl⟩ := Prod.mk.inj heq
    obtain ⟨⟨rr, psjf, mlfq, cfs, rfl⟩, hq⟩ := addToScheduler_spec hadd
    have hne : w ≠ r := by
      rintro rfl
      have hb := (h.waiter w w (h.cpu w rfl).2.2 hw).2.1
      rw [(h.running w (h.cpu w rfl).2.2).mpr rfl] at hb
      exact absurd hb (by decide)
    -- the source stores into the block of `r` twice, and into that of `w` in between
    have htcb : s₁.tcb = (((s.setState w .ready).setTcb r
        { s.tcb r with state := .terminated, retval := v, waitingThread := none }).save r
          .exited).tcb := by
      rw [← hs₁]
      funext t
      simp only [State.setState, State.setTcb, State.save, update_apply]
      grind
    have hsound := (h.wakes hw v).of_eq htcb (hs₁ ▸ rfl) (hs₁ ▸ rfl) (hs₁ ▸ rfl) (hs₁ ▸ rfl)
      (hs₁ ▸ rfl) (hs₁ ▸ rfl) (hs₁ ▸ rfl) (hs₁ ▸ rfl)
    have hqueue : queued pol s₁ = queued pol s + {w} := by
      rw [← hs₁]
      exact hq
    rw [← hqueue] at hsound
    have hblocked := (h.waiter r w (h.cpu r rfl).2.2 hw).2.1
    have hterm : (s₁.tcb r).state = .terminated := by
      simp [htcb, State.setTcb, State.save]
    refine acted_of_enter (hs₁ ▸ hrun) (parked_of_sound hsound (.inr hterm)) (hs₁ ▸ rfl)
      (fun t ht => ?_) (fun t => ?_) (fun _ _ => ⟨(h.cpu r rfl).2.2, hterm⟩) (hs₁ ▸ rfl) hterm
    · rw [htcb] at ht ⊢
      simp only [State.setState, State.setTcb, State.save, update_apply] at ht ⊢
      grind
    · rw [htcb]
      simp only [State.setState, State.setTcb, State.save, update_apply]
      grind

theorem unlock_acted (h : Sound s (some r) (queued pol s)) (he : unlock pol s m = some (s₁, after)) :
    Acted pol s r s₁ after := by
  unfold unlock at he
  dsimp only at he
  split at he
  -- the caller is not the owner: nothing happens
  · obtain ⟨rfl, rfl⟩ := Prod.mk.inj (Option.some.inj he)
    exact acted_of_tcb h rfl rfl le_rfl (.code (-1)) fun _ _ => by simp
  split at he
  -- nobody waits: the mutex is clear
  · obtain ⟨rfl, rfl⟩ := Prod.mk.inj (Option.some.inj he)
    have hs : Sound (s.setMutex m { s.mutex m with ownerTcb := none, locked := false })
        (some r) (queued pol s) := h.setMutex m (.inl rfl)
    exact acted_of_tcb (s := s) hs rfl rfl le_rfl (.code 0) fun _ _ => by simp
  · next w rest hw =>
    obtain ⟨s₂, hadd, heq⟩ := Option.map_eq_some_iff.mp he
    obtain ⟨rfl, rfl⟩ := Prod.mk.inj heq
    -- the first waiter goes to the run queue and becomes `READY`
    obtain ⟨⟨rr, psjf, mlfq, cfs, rfl⟩, hq⟩ := addToScheduler_spec hadd
    have hblocked := (h.wait m w (by rw [hw]; exact List.mem_cons_self)).2.1
    have hwoken : Sound ((s.setMutex m ⟨false, none, rest⟩).setState w .ready) (some r)
        (queued pol s + {w}) := h.unlocks hw
    have hqueue : queued pol { (s.setMutex m ⟨false, none, rest⟩).setState w .ready with
        rrQueue := rr, psjfHeap := psjf, mlfqLevels := mlfq, cfsHeap := cfs } = queued pol s + {w} := hq
    rw [← hqueue] at hwoken
    have hsound : Sound { (s.setMutex m ⟨false, none, rest⟩).setState w .ready with
        rrQueue := rr, psjfHeap := psjf, mlfqLevels := mlfq, cfsHeap := cfs } (some r)
        (queued pol { (s.setMutex m ⟨false, none, rest⟩).setState w .ready with
          rrQueue := rr, psjfHeap := psjf, mlfqLevels := mlfq, cfsHeap := cfs }) :=
      hwoken.of_eq rfl rfl rfl rfl rfl rfl rfl rfl rfl
    -- the threads that end, live and are freed are those of before
    refine ⟨fun _ _ => hsound, fun _ hx => absurd hx (by simp), fun t ha ht => .inl ?_,
      fun t ha ht => .inl ?_, fun _ hx => absurd hx (by simp), le_rfl,
      fun _ _ hx => absurd hx (by simp), fun t ha hf => absurd (ha.symm.trans hf) (by decide)⟩ <;>
    simp only [State.setState, State.setTcb, State.setMutex, update_apply] at ha ht ⊢ <;>
    grind

/-- A thread that is joined after it has ended. -/
theorem join_ended (h : Sound s (some r) (queued pol s)) (hx : s.allocated x = true)
    (hst : (s.tcb x).state = .terminated) (hmain : x ≠ s.mainTcb)
    (hjoin : ∀ w thread, s.allocated w = true → s.pointOf (some r) w ≠ .joining thread x)
    (hid : (s.tcb x).id = thread) :
    Acted pol s r (s.cleanupThread x) (.ret (.joined thread (s.tcb x).retval)) := by
  refine ⟨fun _ _ => h.frees hx hst hmain hjoin, fun _ hx => absurd hx (by simp),
    fun t ha ht => .inl ⟨?_, ht, rfl, rfl⟩, fun t ha ht => .inl ⟨?_, ht, rfl⟩,
    fun _ hx => absurd hx (by simp), le_rfl, fun thread' v' he => ?_, fun t ha hf => ?_⟩
  · simp only [State.cleanupThread, update_apply] at ha
    grind
  · simp only [State.cleanupThread, update_apply] at ha
    grind
  · obtain ⟨rfl, rfl⟩ := Reply.joined.inj (After.ret.inj he)
    exact ⟨x, hx, hst, hid, rfl⟩
  · simp only [State.cleanupThread, update_apply] at hf
    grind

/-- Where `joined` is set does not matter for what a call did. -/
theorem Acted.of_marked (h : Acted pol (s.setTcb x { s.tcb x with joined := true }) r s₁ after) :
    Acted pol s r s₁ after := by
  obtain ⟨hret, henter, hended, halive, hexits, hnext, hjoined, hfreed⟩ := h
  refine ⟨hret, henter, fun t ha ht => ?_, fun t ha ht => ?_, fun v he => ?_, hnext,
    fun thread v he => ?_, fun t ha hf => ?_⟩
  · have := hended t ha ht
    simp only [State.setTcb, update_apply] at this
    grind
  · have := halive t ha ht
    simp only [State.setTcb, update_apply] at this
    grind
  · have := hexits v he
    simp only [State.setTcb, update_apply] at this
    grind
  · have := hjoined thread v he
    simp only [State.setTcb, update_apply] at this
    grind
  · have := hfreed t ha hf
    simp only [State.setTcb, update_apply] at this
    grind

theorem Sound.marks {cur : Option TcbPtr} {q : Multiset TcbPtr} (h : Sound s cur q) (x : TcbPtr) :
    Sound (s.setTcb x { s.tcb x with joined := true }) cur q := by
  obtain ⟨hwho, hcpu, hrun, hq, hwait, honce, hwaiter, hjoin, hjo, hids, hfresh, hmain, htab, hto⟩ := h
  simp only [State.pointOf] at *
  constructor <;> simp only [State.setTcb, State.pointOf, update_apply] <;> grind

theorem join_acted (h : Sound s (some r) (queued pol s)) (he : join s thread = some (s₁, after)) :
    Acted pol s r s₁ after := by
  have hc := h.cpu r rfl
  have hrunning := (h.running r hc.2.2).mpr rfl
  -- three tests fail without an effect
  have hfail : ∀ c, Acted pol s r s (.ret (.code c)) := fun c =>
    acted_of_tcb h rfl rfl le_rfl (.code c) fun _ _ => by simp
  unfold join at he
  split at he
  · obtain ⟨rfl, rfl⟩ := Prod.mk.inj (Option.some.inj he)
    exact hfail _
  next x hfind =>
  have hx := mem_of_findTcbById hfind
  have hid : (s.tcb x).id = thread := id_of_findTcbById hfind
  have hxa := h.table x hx
  rw [hc.2.1] at he
  dsimp only at he
  split at he
  · obtain ⟨rfl, rfl⟩ := Prod.mk.inj (Option.some.inj he)
    exact hfail _
  next hself =>
  have hne : x ≠ r := by
    rintro rfl
    exact hself hid
  split at he
  · obtain ⟨rfl, rfl⟩ := Prod.mk.inj (Option.some.inj he)
    exact hfail _
  next hj =>
  have hmark : (s.setTcb x { s.tcb x with joined := true }).tcb x = { s.tcb x with joined := true } :=
    update_self _ _ _
  rw [hmark] at he
  dsimp only at he
  split at he
  · next hst =>
    obtain ⟨rfl, rfl⟩ := Prod.mk.inj (Option.some.inj he)
    -- nobody else joins it, since `joined` was clear
    have hnone : ∀ w thread, s.allocated w = true → s.pointOf (some r) w ≠ .joining thread x :=
      fun w thread hw hp => hj (h.joining w thread x hw hp).2.1
    have hid' : ((s.setTcb x { s.tcb x with joined := true }).tcb x).id = thread := by
      rw [hmark]
      exact hid
    have hend := join_ended (h.marks x) hxa.1 (by rw [hmark]; exact hst) hxa.2 hnone hid'
    rw [hmark] at hend
    exact hend.of_marked
  · next hst =>
    obtain ⟨hs₁, rfl⟩ := Prod.mk.inj (Option.some.inj he)
    have hsound := h.joins hx hne (by simpa using hj) hst
    rw [hid] at hsound
    -- the statements store one field after the other, in sum this
    have htcb : s₁.tcb = (((s.setState r .blocked).setTcb x
        { s.tcb x with joined := true, waitingThread := some r }).save r (.joining thread x)).tcb := by
      rw [← hs₁]
      funext t
      simp only [State.setState, State.setTcb, State.save, update_apply]
      grind
    have hsound' := hsound.of_eq htcb (hs₁ ▸ rfl) (hs₁ ▸ rfl) (hs₁ ▸ rfl) (hs₁ ▸ rfl)
      (hs₁ ▸ rfl) (hs₁ ▸ rfl) (hs₁ ▸ rfl) (hs₁ ▸ rfl)
    have hqueue : queued pol s₁ = queued pol s := by
      rw [← hs₁]
      rfl
    rw [← hqueue] at hsound'
    have hblocked : s₁.stateOf r = .blocked := by
      simp [State.stateOf, htcb, State.setState, State.setTcb, State.save, Ne.symm hne]
    refine acted_of_enter (hs₁ ▸ hc.2.1) (parked_of_sound hsound' (.inl hblocked)) (hs₁ ▸ rfl)
      (fun t ht => .inl ?_) (fun t => ?_) (fun _ hv => absurd hv (by simp)) (hs₁ ▸ rfl) hblocked
    · rw [htcb] at ht ⊢
      simp only [State.setState, State.setTcb, State.save, update_apply] at ht ⊢
      grind
    · rw [htcb]
      simp only [State.setState, State.setTcb, State.save, update_apply]
      grind

theorem create_acted (h : Sound s (some r) (queued pol s)) {u : TcbPtr} {fresh : Tcb}
    (hfr : fresh.waitingThread = none) (he : create pol s u fresh = some (s₁, after)) :
    Acted pol s r s₁ after := by
  unfold create at he
  split at he
  · next hu =>
    dsimp only at he
    obtain ⟨s₂, hadd, heq⟩ := Option.map_eq_some_iff.mp he
    obtain ⟨hs₁, rfl⟩ := Prod.mk.inj heq
    obtain ⟨⟨rr, psjf, mlfq, cfs, rfl⟩, hq⟩ := addToScheduler_spec hadd
    -- the block and the run queue, read off the final state
    have htcb : s₁.tcb = update s.tcb u (fresh.create s.nextThreadId) := hs₁ ▸ rfl
    have halloc : s₁.allocated = update s.allocated u true := hs₁ ▸ rfl
    have hsound := (h.creates hu.1 hfr s.threadCount).of_eq htcb halloc (hs₁ ▸ rfl) (hs₁ ▸ rfl)
      (hs₁ ▸ rfl) (hs₁ ▸ rfl) (hs₁ ▸ rfl) (hs₁ ▸ rfl) (hs₁ ▸ rfl)
    have hqueue : queued pol s₁ = queued pol s + {u} := by
      rw [← hs₁]
      exact hq
    rw [← hqueue] at hsound
    have hnext : s₁.nextThreadId = s.nextThreadId + 1 := hs₁ ▸ rfl
    refine ⟨fun _ _ => hsound, fun _ hx => absurd hx (by simp), fun t ha ht => .inl ?_,
      fun t ha ht => ?_, fun _ hx => absurd hx (by simp), hnext ▸ Nat.le_succ _,
      fun _ _ hx => absurd hx (by simp), fun t ha hf => ?_⟩
    -- only the new block is new, and its thread is `READY`
    · rw [htcb] at ht ⊢
      rw [halloc] at ha
      simp only [update_apply, Tcb.create] at ha ht ⊢
      grind
    · rw [htcb] at ht ⊢
      rw [halloc] at ha
      simp only [update_apply, Tcb.create] at ha ht ⊢
      grind
    · rw [halloc] at hf
      simp only [update_apply] at hf
      grind
  -- the block was in use, which the C library does not give
  · exact absurd he (by simp)

theorem createFails_acted (h : Sound s (some r) (queued pol s)) {stack : Bool}
    (he : createFails s stack = some (s₁, after)) : Acted pol s r s₁ after := by
  unfold createFails at he
  split at he
  · split at he
    · obtain ⟨rfl, rfl⟩ := Prod.mk.inj (Option.some.inj he)
      exact acted_of_tcb (s := s) (h.skips (s.threadCount + 1)) rfl rfl (Nat.le_succ _) (.code (-1)) fun _ _ => by simp
    · exact absurd he (by simp)
  · obtain ⟨rfl, rfl⟩ := Prod.mk.inj (Option.some.inj he)
    exact acted_of_tcb h rfl rfl le_rfl (.code (-1)) fun _ _ => by simp

/-- Where the thread on the CPU goes on does not matter for what a call did. -/
theorem Acted.of_cpu {c : Code} (h : Acted pol { s with cpu := c } r s₁ after) :
    Acted pol s r s₁ after :=
  ⟨h.ret, h.enter, h.ended, h.alive, h.exits, h.next, h.joined, h.freed⟩

theorem resume_acted (h : Sound s (some r) (queued pol s)) (he : resume s = some (s₁, after)) :
    Acted pol s r s₁ after := by
  have hc := h.cpu r rfl
  have hst := (h.running r hc.2.2).mpr rfl
  have huser : Sound { s with cpu := ⟨s.cpu.who, .user⟩ } (some r)
      (queued pol { s with cpu := ⟨s.cpu.who, .user⟩ }) := h.user
  unfold resume at he
  split at he
  · exact absurd he (by simp)
  · exact (lockLoop_acted huser he).of_cpu
  · next thread x hpoint =>
    have hat : s.pointOf (some r) r = .joining thread x := by
      rw [State.pointOf, if_pos rfl, hpoint]
    obtain ⟨hxa, -, hid, hxm, -, hxt⟩ := h.joining r thread x hc.2.2 hat
    have hx := hxt (by rw [hst]; decide)
    obtain ⟨rfl, rfl⟩ := Prod.mk.inj (Option.some.inj he)
    refine (join_ended huser hxa hx hxm (fun w thread' hw hp => ?_) hid).of_cpu
    -- only `r` was waiting for `x`, and it goes on
    have hp' : s.pointOf (some r) w = .joining thread' x := by
      unfold State.pointOf at hp ⊢
      split at hp
      · exact absurd hp (by simp)
      · next hne =>
        rw [if_neg hne]
        exact hp
    have hwr := h.joinOnce w r thread' thread x hw hc.2.2 hp' hat
    unfold State.pointOf at hp
    rw [if_pos (by rw [hwr])] at hp
    exact absurd hp (by simp)
  · obtain ⟨rfl, rfl⟩ := Prod.mk.inj (Option.some.inj he)
    exact acted_of_tcb (s := s) huser rfl rfl le_rfl .nothing fun _ _ => by simp

/-- **What a call does**, up to its return or its `swapcontext`. -/
theorem act_acted (h : Sound s (some r) (queued pol s)) {op : Op}
    (hop : ∀ u fresh, op = .create u fresh → fresh.waitingThread = none)
    (hyield : pol = .mlfq → op ≠ .yield) (he : act pol s op = some (s₁, after)) :
    Acted pol s r s₁ after := by
  have hc := h.cpu r rfl
  have hst := (h.running r hc.2.2).mpr rfl
  -- a thread that is put back: it is ready when `schedule` adds it
  have hback : ∀ (st : ThreadState) (why : Leave), st = .running ∨ st = .ready ∧ pol ≠ .mlfq →
      (∀ v, why ≠ .exited v) → st = why.state →
      Acted pol s r ((s.setState r st).save r .user) (.enter why) := by
    intro st why hstate hwhy hst
    have hself : ((s.setState r st).save r .user).stateOf r = st :=
      congrArg Tcb.state (update_self r _ s.tcb)
    have hset : ((s.setState r st).save r .user).setState r .ready
        = (s.setState r .ready).save r .user := by
      simp only [State.setState, State.setTcb, State.save, update_self, update_idem]
    refine acted_of_enter hc.2.1 ?_ rfl (fun t ht => .inl ?_) (fun t => ?_)
      (fun v hv => absurd hv (hwhy v)) rfl (hself.trans hst)
    · unfold Parked
      have hsettled : settled st = .ready := by
        rcases hstate with rfl | ⟨rfl, -⟩ <;> rfl
      have hadd : requeued pol r st = {r} := by
        rcases hstate with rfl | ⟨rfl, hpol⟩
        · rfl
        · exact if_neg hpol
      rw [hself, hsettled, hset, hadd]
      exact h.preempted
    · simp only [State.setState, State.setTcb, State.save, update_apply] at ht ⊢
      grind
    · simp only [State.setState, State.setTcb, State.save, update_apply]
      grind
  by_cases hres : op = .resume
  · subst hres
    exact resume_acted h (act_resume he)
  replace he := (act_call hres he).2
  cases op with
  | resume => exact absurd rfl hres
  | tick =>
    unfold call at he
    rw [hc.2.1] at he
    obtain ⟨rfl, rfl⟩ := Prod.mk.inj (Option.some.inj he)
    have hb := hback .running .preempted (.inl rfl) (fun _ => by simp) rfl
    have hself : s.setState r .running = s := hst ▸ setState_self s r
    rwa [hself] at hb
  | yield =>
    unfold call at he
    rw [hc.2.1] at he
    obtain ⟨rfl, rfl⟩ := Prod.mk.inj (Option.some.inj he)
    exact hback .ready .yielded (.inr ⟨rfl, fun hpol => hyield hpol rfl⟩) (fun _ => by simp) rfl
  | exit v => exact exit_acted h he
  | join thread => exact join_acted h he
  | lock m => exact lockLoop_acted h he
  | unlock m => exact unlock_acted h he
  | mutexInit m =>
    obtain ⟨rfl, rfl⟩ := Prod.mk.inj (Option.some.inj he)
    have hs : Sound (s.setMutex m .init) (some r) (queued pol s) := h.setMutex m (.inr rfl)
    exact acted_of_tcb (s := s) hs rfl rfl le_rfl (.code 0) fun _ _ => by simp
  | mutexDestroy m =>
    obtain ⟨rfl, rfl⟩ := Prod.mk.inj (Option.some.inj he)
    exact acted_of_tcb h rfl rfl le_rfl (.code _) fun _ _ => by simp
  | create u fresh => exact create_acted h (hop u fresh rfl) he
  | createFails stack => exact createFails_acted h he

/-- What a step does from a state in which `r` runs, to one in which `n` runs. -/
structure Stepped (pol : Policy) (s : State) (r : TcbPtr) (l : Label) (s' : State) (n : TcbPtr) :
    Prop where
  sound : Sound s' (some n) (queued pol s')
  ended : ∀ t, s'.allocated t = true → (s'.tcb t).state = .terminated →
    (s.allocated t = true ∧ (s.tcb t).state = .terminated ∧ (s'.tcb t).id = (s.tcb t).id ∧
      (s'.tcb t).retval = (s.tcb t).retval) ∨
    ∃ next, l.switch = some ⟨(s'.tcb t).id, .exited (s'.tcb t).retval, next⟩
  alive : ∀ t, s'.allocated t = true → (s'.tcb t).state ≠ .terminated →
    (s.allocated t = true ∧ (s.tcb t).state ≠ .terminated ∧ (s'.tcb t).id = (s.tcb t).id) ∨
    (s'.tcb t).id = s.nextThreadId
  exits : ∀ i v next, l.switch = some ⟨i, .exited v, next⟩ → l.op = .exit v ∧
    ∃ t, s'.allocated t = true ∧ (s'.tcb t).state = .terminated ∧ (s'.tcb t).id = i
  next : s.nextThreadId ≤ s'.nextThreadId
  joined : ∀ thread v, l.reply = .joined thread v → ∃ x, s.allocated x = true ∧
    (s.tcb x).state = .terminated ∧ (s.tcb x).id = thread ∧ (s.tcb x).retval = v
  freed : ∀ t, s.allocated t = true → s'.allocated t = false → (s.tcb t).state = .terminated
  switched : ∀ sw, l.switch = some sw → sw.left = (s.tcb r).id ∧ sw.next = some (s'.tcb n).id ∧
    s.allocated n = true ∧ (s.tcb n).state ≠ .terminated ∧ (s'.tcb n).id = (s.tcb n).id

/-- The thread that is dispatched was ready, or has just been preempted. -/
theorem Parked.ready {n : TcbPtr} {s' : State} (h : Parked pol s r) (hs : Scheduled pol s r s' n) :
    s.allocated n = true ∧ (s.tcb n).state ≠ .terminated := by
  have hcount := h.queue n
  rw [← hs.queue, Multiset.count_add, Multiset.count_singleton_self] at hcount
  by_contra hnot
  rw [if_neg] at hcount
  · omega
  · rintro ⟨ha, hst⟩
    refine hnot ⟨ha, ?_⟩
    simp only [State.setState, State.setTcb, State.stateOf, update_apply] at hst
    split at hst
    · next hn =>
      rw [hn]
      intro hterm
      rw [hterm] at hst
      exact (by decide : settled .terminated ≠ .ready) hst
    · rw [hst]
      decide

/-- With a thread ready, `schedule` finds one. -/
theorem Parked.ne_zero (h : Parked pol s r) (hrun : s.runningTcb = some r) (hr : SomeReady s) :
    queued pol s + requeued pol r (s.stateOf r) ≠ 0 := by
  intro hzero
  obtain ⟨t, ha, hst⟩ := hr
  have hcount := h.queue t
  have hready : ((s.setState r (settled (s.stateOf r))).tcb t).state = .ready := by
    simp only [State.setState, State.setTcb, State.stateOf, update_apply]
    split
    · next htr =>
      rw [← htr]
      rcases hst with hst | ⟨-, hst⟩ <;> rw [hst] <;> rfl
    · next htr =>
      rcases hst with hst | ⟨hrt, -⟩
      · exact hst
      · rw [hrun] at hrt
        exact absurd (Option.some.inj hrt).symm htr
  rw [hzero, Multiset.count_zero, if_pos ⟨ha, hready⟩] at hcount
  exact absurd hcount (by decide)

/-- `schedule` lets no thread end and revives none. -/
theorem Scheduled.terminated_iff {n : TcbPtr} {s' : State} (hs : Scheduled pol s r s' n)
    (hn : (s.tcb n).state ≠ .terminated) (t : TcbPtr) :
    (s'.tcb t).state = .terminated ↔ (s.tcb t).state = .terminated := by
  rw [hs.keeps.state t]
  simp only [State.stateOf, update_apply, settled]
  grind

theorem schedule_psjf_ne_none {s' : State} {result : Option TcbPtr} {entry disp : ℤ}
    (h : schedule .psjf s entry disp = some (s', result)) : result ≠ none := by
  obtain ⟨s₁, -, hsched⟩ := Option.bind_eq_some_iff.mp h
  obtain ⟨x, -, heq⟩ := Option.map_eq_some_iff.mp hsched
  have hsome : some x.1 = result := congrArg Prod.snd heq
  rw [← hsome]
  exact Option.some_ne_none _

theorem schedule_cfs_ne_none {s' : State} {result : Option TcbPtr} {entry disp : ℤ}
    (h : schedule .cfs s entry disp = some (s', result)) : result ≠ none := by
  obtain ⟨s₁, -, hsched⟩ := Option.bind_eq_some_iff.mp h
  unfold sched schedCfs at hsched
  dsimp only at hsched
  split at hsched
  · exact absurd hsched (by simp)
  · obtain ⟨x, -, heq⟩ := Option.map_eq_some_iff.mp hsched
    have hsome : some x.1 = result := congrArg Prod.snd heq
    rw [← hsome]
    exact Option.some_ne_none _

/-- The runs in which every entry of the scheduler is as `EntryOk` says, on a heap of zeros. -/
abbrev orderly (pol : Policy) : System State Label :=
  (library pol (· = Tcb.zero)).restrict fun s l => EntryOk pol s l.op

/-- A step in which the call returns. -/
structure Returned (pol : Policy) (s : State) (r : TcbPtr) (l : Label) (s' : State) : Prop where
  act : act pol s l.op = some (s', .ret l.reply)
  acted : Acted pol s r s' (.ret l.reply)
  switch : l.switch = none

/-- A step in which `r` enters the scheduler, in the state `s₁`, and `n` is dispatched. -/
structure Switched (pol : Policy) (s : State) (r : TcbPtr) (l : Label) (s' : State) (s₁ : State)
    (why : Leave) (n : TcbPtr) : Prop where
  act : act pol s l.op = some (s₁, .enter why)
  acted : Acted pol s r s₁ (.enter why)
  entry : s.clock ≤ l.entry
  dispatch : l.entry ≤ l.dispatch
  schedule : ∃ s₂, schedule pol s₁ l.entry l.dispatch = some (s₂, some n) ∧
    Scheduled pol s₁ r s₂ n ∧ s' = { s₂ with clock := l.dispatch }
  reply : l.reply = .nothing
  switch : l.switch = some ⟨(s.tcb r).id, why, some (s'.tcb n).id⟩

/-- **The two kinds of step.** -/
theorem step_cases {s' : State} {l : Label} (h : Sound s (some r) (queued pol s))
    (hop : ∀ u fresh, l.op = .create u fresh → fresh.waitingThread = none)
    (hok : EntryOk pol s l.op)
    (hstep : step pol s l.op l.entry l.dispatch = some (s', l.reply, l.switch)) :
    Returned pol s r l s' ∨ ∃ s₁ why n, Switched pol s r l s' s₁ why n := by
  have hcpu := h.cpu r rfl
  unfold step at hstep
  split at hstep
  · exact absurd hstep (by simp)
  -- the call returns to its thread
  · next s₁ reply hact =>
    have hyield : pol = .mlfq → l.op ≠ .yield := by
      intro _ hl
      rw [hl] at hact
      exact absurd (act_yield hcpu.2.1 hact) (by simp)
    obtain ⟨rfl, heq⟩ := Prod.mk.inj (Option.some.inj hstep)
    obtain ⟨rfl, hsw⟩ := Prod.mk.inj heq
    exact .inl ⟨hact, act_acted h hop hyield hact, hsw.symm⟩
  -- the call leaves the CPU, and under MLFQ it is no `worker_yield`
  · next s₁ why hact =>
    have hyield : pol = .mlfq → l.op ≠ .yield := by
      intro hpol hl
      rw [hl] at hact
      obtain rfl := After.enter.inj (act_yield hcpu.2.1 hact)
      exact (hok s₁ .yielded (hl ▸ hact)).2 ⟨hpol, rfl⟩
    have ha := act_acted h hop hyield hact
    obtain ⟨hrun, hpark, -⟩ := ha.enter why rfl
    split at hstep
    · next hclock =>
      obtain ⟨⟨s₂, result⟩, hsched, heq⟩ := Option.map_eq_some_iff.mp hstep
      obtain ⟨hs', heq⟩ := Prod.mk.inj heq
      obtain ⟨hreply, hsw⟩ := Prod.mk.inj heq
      rcases schedule_spec hrun hsched with ⟨n, rfl, hsch⟩ | ⟨hnone, hempty⟩
      · refine .inr ⟨s₁, why, n, hact, ha, hclock.1, hclock.2, ⟨s₂, hsched, hsch, hs'.symm⟩,
          hreply.symm, ?_⟩
        rw [← hsw, hcpu.1, ← hs']
        rfl
      -- falling back is excluded by what is known of the entry
      · rcases (hok s₁ why hact).1 with rfl | rfl | hready
        · exact absurd hnone (schedule_psjf_ne_none hsched)
        · exact absurd hnone (schedule_cfs_ne_none hsched)
        · exact absurd hempty (hpark.ne_zero hrun hready)
    · exact absurd hstep (by simp)

theorem orderly_cases {s' : State} {l : Label} (h : Sound s (some r) (queued pol s))
    (hs : (orderly pol).step s l s') :
    Returned pol s r l s' ∨ ∃ s₁ why n, Switched pol s r l s' s₁ why n := by
  obtain ⟨⟨hstep, hfresh⟩, hok⟩ := hs
  refine step_cases h (fun u fresh hcreate => ?_) hok hstep
  rw [hfresh u fresh hcreate]
  rfl

theorem Returned.stepped {s' : State} {l : Label} (h : Returned pol s r l s') :
    Stepped pol s r l s' r := by
  have ha := h.acted
  refine ⟨ha.ret _ rfl, fun t hal ht => ?_, ha.alive, fun i v next he => ?_, ha.next,
    fun thread v he => ha.joined thread v (congrArg After.ret he), ha.freed, fun sw he => ?_⟩
  · rcases ha.ended t hal ht with hold | ⟨-, -, hnew⟩
    · exact .inl hold
    · exact absurd hnew (by simp)
  · rw [h.switch] at he
    exact absurd he (by simp)
  · rw [h.switch] at he
    exact absurd he (by simp)

theorem Switched.stepped {s' : State} {l : Label} {why : Leave} {n : TcbPtr}
    (h : Switched pol s r l s' s₁ why n) : Stepped pol s r l s' n := by
  have ha := h.acted
  obtain ⟨hrun, hpark, halloc, hnext, -⟩ := ha.enter why rfl
  obtain ⟨s₂, -, hsch, rfl⟩ := h.schedule
  obtain ⟨hna, hnst⟩ := hpark.ready hsch
  have hk := hsch.keeps
  -- `schedule` ends no thread and brings none back
  have hterm := hsch.terminated_iff hnst
  have hid : ∀ t, (s₂.tcb t).id = (s₁.tcb t).id := fun t => (hk.same t).id
  have hret : ∀ t, (s₂.tcb t).retval = (s₁.tcb t).retval := fun t => (hk.same t).retval
  refine ⟨(hpark.schedule hsch).of_eq rfl rfl rfl rfl rfl rfl rfl rfl rfl, fun t hal ht => ?_,
    fun t hal ht => ?_, fun i v next he => ?_, ?_, fun thread v he => ?_, fun t hal hf => ?_,
    fun sw he => ?_⟩
  -- by field: ended, alive, the switch, the ids, the joins, the freed, the dispatched
  · dsimp only at hal ht ⊢
    rw [hk.allocated] at hal
    rw [hid, hret]
    rcases ha.ended t hal ((hterm t).mp ht) with hold | ⟨htr, hidr, hwhy⟩
    · exact .inl hold
    · refine .inr ⟨some (s₂.tcb n).id, ?_⟩
      rw [h.switch, hidr, htr, After.enter.inj hwhy, htr]
  · dsimp only at hal ht ⊢
    rw [hk.allocated] at hal
    rw [hid]
    exact ha.alive t hal fun hterm' => ht ((hterm t).mpr hterm')
  · rw [h.switch] at he
    obtain ⟨rfl, rfl, -⟩ := Switch.mk.inj (Option.some.inj he)
    obtain ⟨hra, hrt, hrid⟩ := ha.exits v rfl
    exact ⟨(act_leaves h.act).exited, r, hk.allocated ▸ hra, (hterm r).mpr hrt,
      (hid r).trans hrid⟩
  · exact ha.next.trans hk.nextThreadId.ge
  · rw [h.reply] at he
    exact absurd he (by simp)
  · have hf' : s₁.allocated t = false := hk.allocated ▸ hf
    rw [halloc, hal] at hf'
    exact absurd hf' (by decide)
  · rw [h.switch] at he
    obtain rfl := Option.some.inj he
    -- the thread dispatched lived before the call: one just created is not dispatched by it
    rcases ha.alive n hna hnst with ⟨hsa, hsst, hsid⟩ | hnew
    · exact ⟨rfl, rfl, hsa, hsst, (hid n).trans hsid⟩
    · have hlt := hpark.fresh n hna
      simp only [State.setState, State.setTcb, update_apply] at hlt
      grind

/-- **What a step does.** -/
theorem sound_step {s' : State} {l : Label} (h : Sound s (some r) (queued pol s))
    (hs : (orderly pol).step s l s') : ∃ n, Stepped pol s r l s' n := by
  rcases orderly_cases h hs with hret | ⟨s₁, why, n, hsw⟩
  · exact ⟨r, hret.stepped⟩
  · exact ⟨n, hsw.stepped⟩

theorem queued_init {fresh : Tcb} (h : IsInit s fresh) : queued pol s = 0 := by
  have hlevels : ∀ n i, inLevels s.mlfqLevels n i = 0 := by
    intro n
    induction n with
    | zero => exact fun _ => rfl
    | succ n ih =>
      intro i
      rw [inLevels, ih, h.mlfqLevels]
      rfl
  cases pol with
  | psjf =>
    change s.psjfHeap.contents = 0
    rw [h.psjfHeap]
    rfl
  | mlfq => exact hlevels _ _
  | cfs =>
    change s.cfsHeap.contents = 0
    rw [h.cfsHeap]
    rfl
  | rr =>
    change (s.rrQueue : Multiset TcbPtr) = 0
    rw [h.rrQueue]
    rfl

theorem sound_init {fresh : Tcb} (h : IsInit s fresh) (hfresh : fresh.waitingThread = none) :
    Sound s (some s.mainTcb) (queued pol s) := by
  have hnone : ∀ t, some t ∉ s.table := by
    intro t hmem
    rw [h.table] at hmem
    exact absurd (List.eq_of_mem_replicate hmem) (by simp)
  have hpoint : ∀ t, s.pointOf (some s.mainTcb) t = .user := by
    intro t
    unfold State.pointOf
    split
    · rw [h.cpu]
    · rw [h.context]
  have htcb := h.tcb
  have hid : (s.tcb s.mainTcb).id = 0 := by rw [htcb]; rfl
  have hstate : (s.tcb s.mainTcb).state = .running := by rw [htcb]; rfl
  have hwait : (s.tcb s.mainTcb).waitingThread = none := by rw [htcb]; exact hfresh
  have hmutex : ∀ m, (s.mutex m).waitQueue = [] := by
    intro m
    rcases h.mutex m with hm | hm <;> rw [hm] <;> rfl
  rw [queued_init h]
  -- there is one thread, in user code, and no table entry, queue or waiter
  constructor
  · exact fun t => congrArg Code.who (h.context t)
  · rintro r hr
    obtain rfl := Option.some.inj hr
    exact ⟨congrArg Code.who h.cpu, h.runningTcb, (h.allocated _).mpr rfl⟩
  · intro t ha
    rw [(h.allocated t).mp ha]
    exact iff_of_true hstate rfl
  · intro t
    rw [Multiset.count_zero, if_neg]
    rintro ⟨ha, hready⟩
    rw [(h.allocated t).mp ha, hstate] at hready
    exact absurd hready (by decide)
  · intro m t ht
    rw [hmutex] at ht
    exact absurd ht List.not_mem_nil
  · intro m
    rw [hmutex]
    exact List.nodup_nil
  · intro x w ha hw
    rw [(h.allocated x).mp ha, hwait] at hw
    exact absurd hw (by simp)
  · intro w thread x _ hp
    rw [hpoint] at hp
    exact absurd hp (by simp)
  · intro w w' thread thread' x _ _ hp
    rw [hpoint] at hp
    exact absurd hp (by simp)
  · intro t t' ha ha' _
    rw [(h.allocated t).mp ha, (h.allocated t').mp ha']
  · intro t ha
    rw [(h.allocated t).mp ha, hid, h.nextThreadId]
    exact Nat.one_pos
  · exact (h.allocated _).mpr rfl
  · exact fun t hmem => absurd hmem (hnone t)
  · intro t
    rw [List.count_eq_zero_of_not_mem (hnone t)]
    exact Nat.zero_le 1

/-- Under the policies with a heap every run is orderly. -/
theorem orderly_of_heap {ls : List Label} (hpol : pol = .psjf ∨ pol = .cfs)
    (hr : Run (library pol (· = Tcb.zero)) ls s) : Run (orderly pol) ls s := by
  induction hr with
  | start h => exact .start h
  | step _ hs ih =>
    refine ih.step ⟨hs, fun s₁ why _ => ⟨?_, ?_⟩⟩
    · rcases hpol with rfl | rfl <;> simp
    · rcases hpol with rfl | rfl <;> simp

/-- **In an orderly run the threads are sound.** -/
theorem orderly_sound {ls : List Label} (hr : Run (orderly pol) ls s) :
    ∃ r, Sound s (some r) (queued pol s) := by
  refine hr.invariant (I := fun s => ∃ r, Sound s (some r) (queued pol s)) ?_ ?_
  · rintro s ⟨fresh, rfl, hinit⟩
    exact ⟨s.mainTcb, sound_init hinit rfl⟩
  · rintro s l s' ⟨r, h⟩ hs
    obtain ⟨n, hn⟩ := sound_step h hs
    exact ⟨n, hn.sound⟩

end

end Library

end ThreadWorker
