import Cs416.Threads.RunQueue

/-!
# What holds of the threads between calls

`Sound s cur q` says how the control blocks, the contexts, the wait queues and the run queue fit
together, when the code of `cur` is on the CPU and `q` is in the run queue; while the scheduler
chooses, `cur` is `none`. A thread is in the run queue once if it is ready, and not at all
otherwise. A thread that waits, in the queue of a mutex or for another thread to end, is blocked
until the one it waits for makes it ready.

There is one lemma for each thing a call may do.
-/

open Function

namespace ThreadWorker

namespace Library

/-- Where the code of `t` goes on, when that of `cur` is on the CPU. -/
def State.pointOf (s : State) (cur : Option TcbPtr) (t : TcbPtr) : Point :=
  if cur = some t then s.cpu.point else (s.context t).point

/-- **How the threads fit together.** -/
structure Sound (s : State) (cur : Option TcbPtr) (q : Multiset TcbPtr) : Prop where
  /-- Every context is its own thread's. -/
  who : ∀ t, (s.context t).who = t
  cpu : ∀ r, cur = some r → s.cpu.who = r ∧ s.runningTcb = some r ∧ s.allocated r = true
  running : ∀ t, s.allocated t = true → ((s.tcb t).state = .running ↔ cur = some t)
  queue : ∀ t, q.count t = if s.allocated t = true ∧ (s.tcb t).state = .ready then 1 else 0
  wait : ∀ m, ∀ t ∈ (s.mutex m).waitQueue, s.allocated t = true ∧ (s.tcb t).state = .blocked ∧
    s.pointOf cur t = .locking m
  waitOnce : ∀ m, (s.mutex m).waitQueue.Nodup
  /-- The thread that waits for `x` to end. -/
  waiter : ∀ x w, s.allocated x = true → (s.tcb x).waitingThread = some w →
    s.allocated w = true ∧ (s.tcb w).state = .blocked ∧
      s.pointOf cur w = .joining (s.tcb x).id x ∧ (s.tcb x).state ≠ .terminated
  /-- It stays in `worker_join` until `x` has ended, and `x` is not freed before. -/
  joining : ∀ w thread x, s.allocated w = true → s.pointOf cur w = .joining thread x →
    s.allocated x = true ∧ (s.tcb x).joined = true ∧ (s.tcb x).id = thread ∧ x ≠ s.mainTcb ∧
      ((s.tcb w).state = .blocked → (s.tcb x).waitingThread = some w) ∧
      ((s.tcb w).state ≠ .blocked → (s.tcb x).state = .terminated)
  joinOnce : ∀ w w' thread thread' x, s.allocated w = true → s.allocated w' = true →
    s.pointOf cur w = .joining thread x → s.pointOf cur w' = .joining thread' x → w = w'
  ids : ∀ t t', s.allocated t = true → s.allocated t' = true → (s.tcb t).id = (s.tcb t').id → t = t'
  fresh : ∀ t, s.allocated t = true → (s.tcb t).id < s.nextThreadId
  main : s.allocated s.mainTcb = true
  table : ∀ t, some t ∈ s.table → s.allocated t = true ∧ t ≠ s.mainTcb
  tableOnce : ∀ t, s.table.count (some t) ≤ 1

section

variable {s : State} {r t u w x : TcbPtr} {m : MutexPtr} {cur : Option TcbPtr}
  {q : Multiset TcbPtr}

/-- A thread is preempted, or yields. -/
theorem Sound.preempted (h : Sound s (some r) q) :
    Sound ((s.setState r .ready).save r .user) none (q + {r}) := by
  obtain ⟨hwho, hcpu, hrun, hq, hwait, honce, hwaiter, hjoin, hjo, hids, hfresh, hmain, htab, hto⟩ := h
  have hc := hcpu r rfl
  have hr := (hrun r hc.2.2).mpr rfl
  simp only [State.pointOf] at *
  constructor <;>
  simp only [State.setState, State.setTcb, State.save, State.pointOf, update_apply, Multiset.count_add,
    Multiset.count_singleton] <;> grind -ring -linarith -order -ac

/-- A thread waits for a mutex. -/
theorem Sound.waits (h : Sound s (some r) q) (m : MutexPtr) :
    Sound (((s.setState r .blocked).setMutex m
      { s.mutex m with waitQueue := (s.mutex m).waitQueue ++ [r] }).save r (.locking m)) none q := by
  obtain ⟨hwho, hcpu, hrun, hq, hwait, honce, hwaiter, hjoin, hjo, hids, hfresh, hmain, htab, hto⟩ := h
  have hc := hcpu r rfl
  have hr := (hrun r hc.2.2).mpr rfl
  have hnot : ∀ m, r ∉ (s.mutex m).waitQueue := by grind
  simp only [State.pointOf] at *
  constructor <;>
  simp only [State.setState, State.setTcb, State.setMutex, State.save, State.pointOf, update_apply] <;>
  grind -ring -linarith -order -ac

/-- A thread waits for `x` to end. -/
theorem Sound.joins (h : Sound s (some r) q) (hx : some x ∈ s.table) (hne : x ≠ r)
    (hj : (s.tcb x).joined = false) (hst : (s.tcb x).state ≠ .terminated) :
    Sound (((s.setState r .blocked).setTcb x
      { s.tcb x with joined := true, waitingThread := some r }).save r (.joining (s.tcb x).id x))
      none q := by
  obtain ⟨hwho, hcpu, hrun, hq, hwait, honce, hwaiter, hjoin, hjo, hids, hfresh, hmain, htab, hto⟩ := h
  have hc := hcpu r rfl
  have hr := (hrun r hc.2.2).mpr rfl
  simp only [State.pointOf] at *
  constructor <;>
  simp only [State.setState, State.setTcb, State.save, State.pointOf, update_apply] <;>
  grind -ring -linarith -order -ac

/-- A thread ends for which nobody waits. -/
theorem Sound.ends (h : Sound s (some r) q) (hw : (s.tcb r).waitingThread = none) (v : Value) :
    Sound ((s.setTcb r { s.tcb r with state := .terminated, retval := v }).save r .exited) none q := by
  obtain ⟨hwho, hcpu, hrun, hq, hwait, honce, hwaiter, hjoin, hjo, hids, hfresh, hmain, htab, hto⟩ := h
  have hc := hcpu r rfl
  have hr := (hrun r hc.2.2).mpr rfl
  simp only [State.pointOf] at *
  constructor <;>
  simp only [State.setTcb, State.save, State.pointOf, update_apply] <;>
  grind -ring -linarith -order -ac

/-- A thread ends for which `w` waits. -/
theorem Sound.wakes (h : Sound s (some r) q) (hw : (s.tcb r).waitingThread = some w) (v : Value) :
    Sound (((s.setState w .ready).setTcb r
      { s.tcb r with state := .terminated, retval := v, waitingThread := none }).save r .exited)
      none (q + {w}) := by
  obtain ⟨hwho, hcpu, hrun, hq, hwait, honce, hwaiter, hjoin, hjo, hids, hfresh, hmain, htab, hto⟩ := h
  have hc := hcpu r rfl
  have hr := (hrun r hc.2.2).mpr rfl
  simp only [State.pointOf] at *
  constructor <;>
  simp only [State.setState, State.setTcb, State.save, State.pointOf, update_apply,
    Multiset.count_add, Multiset.count_singleton] <;>
  grind -ring -linarith -order -ac

/-- A thread goes on in the program's code. -/
theorem Sound.user (h : Sound s (some r) q) :
    Sound { s with cpu := ⟨s.cpu.who, .user⟩ } (some r) q := by
  obtain ⟨hwho, hcpu, hrun, hq, hwait, honce, hwaiter, hjoin, hjo, hids, hfresh, hmain, htab, hto⟩ := h
  have hc := hcpu r rfl
  have hr := (hrun r hc.2.2).mpr rfl
  simp only [State.pointOf] at *
  constructor <;> simp only [State.pointOf] <;> grind -ring -linarith -order -ac

/-- A mutex changes, and its wait queue stays or is dropped. -/
theorem Sound.setMutex (h : Sound s cur q) (m : MutexPtr) {mu : Mutex}
    (hmu : mu.waitQueue = (s.mutex m).waitQueue ∨ mu.waitQueue = []) :
    Sound (s.setMutex m mu) cur q := by
  obtain ⟨hwho, hcpu, hrun, hq, hwait, honce, hwaiter, hjoin, hjo, hids, hfresh, hmain, htab, hto⟩ := h
  simp only [State.pointOf] at *
  constructor <;> simp only [State.setMutex, State.pointOf, update_apply] <;>
    grind -ring -linarith -order -ac

/-- The head of a wait queue becomes ready. -/
theorem Sound.unlocks (h : Sound s (some r) q) {m : MutexPtr} {mu : Mutex}
    (hmu : (s.mutex m).waitQueue = w :: mu.waitQueue) :
    Sound ((s.setMutex m mu).setState w .ready) (some r) (q + {w}) := by
  obtain ⟨hwho, hcpu, hrun, hq, hwait, honce, hwaiter, hjoin, hjo, hids, hfresh, hmain, htab, hto⟩ := h
  have hc := hcpu r rfl
  have hr := (hrun r hc.2.2).mpr rfl
  have hw := hwait m w (by rw [hmu]; exact List.mem_cons_self)
  have hnodup := honce m
  rw [hmu] at hnodup
  simp only [State.pointOf] at *
  constructor <;>
  simp only [State.setMutex, State.setState, State.setTcb, State.pointOf, update_apply,
    Multiset.count_add, Multiset.count_singleton] <;>
  grind -ring -linarith -order -ac

/-- A thread is created. -/
theorem Sound.creates (h : Sound s (some r) q) (hu : s.allocated u = false) {fresh : Tcb}
    (hfr : fresh.waitingThread = none) (count : ℤ) :
    Sound
      { s with
        tcb := update s.tcb u (fresh.create s.nextThreadId)
        allocated := update s.allocated u true
        context := update s.context u ⟨u, .user⟩
        nextThreadId := s.nextThreadId + 1
        table := (addThreadToTable s.table u).1
        threadCount := count } (some r) (q + {u}) := by
  obtain ⟨hwho, hcpu, hrun, hq, hwait, honce, hwaiter, hjoin, hjo, hids, hfresh, hmain, htab, hto⟩ := h
  have hc := hcpu r rfl
  have hr := (hrun r hc.2.2).mpr rfl
  -- the block was free, so it was not in the table, and each field is looked at by thread
  have hnot : some u ∉ s.table := fun hmem => by
    have := (htab u hmem).1
    rw [hu] at this
    exact absurd this (by decide)
  have hmem : ∀ t, some t ∈ (addThreadToTable s.table u).1 → t = u ∨ some t ∈ s.table :=
    fun t => mem_addThreadToTable
  have hcount : ∀ t, (addThreadToTable s.table u).1.count (some t) ≤ 1 :=
    fun t => count_addThreadToTable hnot t (hto t)
  simp only [State.pointOf] at *
  constructor <;>
  simp only [State.pointOf, update_apply, Multiset.count_add, Multiset.count_singleton, Tcb.create] <;>
  grind -ring -linarith -order -ac

/-- An `id` is used up. -/
theorem Sound.skips (h : Sound s cur q) (count : ℤ) :
    Sound { s with nextThreadId := s.nextThreadId + 1, threadCount := count } cur q :=
  ⟨h.who, h.cpu, h.running, h.queue, h.wait, h.waitOnce, h.waiter, h.joining, h.joinOnce, h.ids,
    fun t ht => (h.fresh t ht).trans (Nat.lt_succ_self _), h.main, h.table, h.tableOnce⟩

/-- A thread that has ended is joined and freed. -/
theorem Sound.frees (h : Sound s (some r) q) (hx : s.allocated x = true)
    (hst : (s.tcb x).state = .terminated) (hmain : x ≠ s.mainTcb)
    (hjoin : ∀ w thread, s.allocated w = true → s.pointOf (some r) w ≠ .joining thread x) :
    Sound (s.cleanupThread x) (some r) q := by
  obtain ⟨hwho, hcpu, hrun, hq, hwait, honce, hwaiter, hjoin', hjo, hids, hfresh, hmain', htab, hto⟩ := h
  have hc := hcpu r rfl
  have hr := (hrun r hc.2.2).mpr rfl
  have hgone : some x ∉ (removeThreadFromTable s.table s.idOf (s.tcb x).id).1 :=
    not_mem_removeThreadFromTable (hto x) fun t ht hid => hids t x (htab t ht).1 hx hid
  have hmem : ∀ t, some t ∈ (removeThreadFromTable s.table s.idOf (s.tcb x).id).1 →
      some t ∈ s.table := fun t => mem_removeThreadFromTable
  have hcount : ∀ t, (removeThreadFromTable s.table s.idOf (s.tcb x).id).1.count (some t) ≤ 1 :=
    fun t => (count_removeThreadFromTable _ (by simp)).trans (hto t)
  simp only [State.pointOf] at *
  constructor <;> simp only [State.cleanupThread, State.pointOf, update_apply] <;>
    grind -ring -linarith -order -ac

/-- The scheduler dispatches a thread of the run queue. -/
theorem Sound.dispatch {s' : State} {n : TcbPtr} (h : Sound s none (q + {n}))
    (hk : Keeps s s' (update s.stateOf n .running)) (hrunning : s'.runningTcb = some n)
    (hcode : s'.cpu = s.context n) : Sound s' (some n) q := by
  obtain ⟨halloc, htable, -, hnext, hmutex, hmaintcb, hctx, hsame, hstate⟩ := hk
  obtain ⟨hwho, hcpu, hrun, hq, hwait, honce, hwaiter, hjoin, hjo, hids, hfresh, hmain, htab, hto⟩ := h
  have hid : ∀ t, (s'.tcb t).id = (s.tcb t).id := fun t => (hsame t).id
  have hwt : ∀ t, (s'.tcb t).waitingThread = (s.tcb t).waitingThread := fun t =>
    (hsame t).waitingThread
  have hjd : ∀ t, (s'.tcb t).joined = (s.tcb t).joined := fun t => (hsame t).joined
  have hn : s.allocated n = true ∧ (s.tcb n).state = .ready := by
    have hcount := hq n
    rw [Multiset.count_add, Multiset.count_singleton_self] at hcount
    by_contra hnot
    rw [if_neg hnot] at hcount
    omega
  clear hsame
  simp only [State.pointOf, State.stateOf, update_apply, Multiset.count_add,
    Multiset.count_singleton] at *
  constructor <;>
  simp only [State.pointOf, halloc, htable, hnext, hmutex, hmaintcb, hctx, hid, hwt, hjd, hstate,
    hcode, hrunning] <;> grind -ring -linarith -order -ac

/-- What `schedule` leaves, seen from the state in which the thread that left the CPU has been
made ready. -/
theorem Scheduled.keeps_settled {pol : Policy} {s' : State} {n : TcbPtr}
    (h : Scheduled pol s r s' n) :
    Keeps (s.setState r (settled (s.stateOf r))) s'
      (update (s.setState r (settled (s.stateOf r))).stateOf n .running) := by
  have hst : (s.setState r (settled (s.stateOf r))).stateOf
      = update s.stateOf r (settled (s.stateOf r)) := by
    funext t
    simp only [State.setState, State.setTcb, State.stateOf, update_apply]
    split <;> rfl
  obtain ⟨ha, ht, hc, hn, hm, hmain, hctx, hsame, hstate⟩ := h.keeps
  rw [hst]
  refine ⟨ha, ht, hc, hn, hm, hmain, hctx, fun t => ?_, hstate⟩
  have hsame := hsame t
  simp only [State.setState, State.setTcb, update_apply]
  split
  · next htr =>
    subst htr
    exact ⟨hsame.id, hsame.retval, hsame.waitingThread, hsame.joined⟩
  · exact hsame

/-- A call has left the CPU: the state that `schedule` is about to make of it is sound. -/
def Parked (pol : Policy) (s : State) (r : TcbPtr) : Prop :=
  Sound (s.setState r (settled (s.stateOf r))) none (queued pol s + requeued pol r (s.stateOf r))

/-- **`schedule` keeps the threads sound.** -/
theorem Parked.schedule {pol : Policy} {s' : State} {n : TcbPtr} (h : Parked pol s r)
    (hs : Scheduled pol s r s' n) : Sound s' (some n) (queued pol s') := by
  unfold Parked at h
  rw [← hs.queue] at h
  exact h.dispatch hs.keeps_settled hs.runningTcb hs.cpu

end

end Library

end ThreadWorker
