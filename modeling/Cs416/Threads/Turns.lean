import Cs416.Lib.Fifo
import Cs416.Threads.RunQueue

/-!
# Taking turns

Two queues of the library serve in turn, from any state on and whatever the threads do: the run
queue of the round robin policy, where a dispatch takes the head (`rr_turn`), and the wait queue
of a mutex, where an unlock does (`mutex_turn`). So a ready thread waits for as many dispatches as
there are threads in front of it, and a blocked one for as many unlocks.
-/

open Function Lts

namespace ThreadWorker

namespace Library

section

variable {pol : Policy} {s s₁ s' : State} {op : Op} {after : After} {m : MutexPtr} {t : TcbPtr}
  {l : Label}

/-! ### What a call does to the queues -/

theorem addToScheduler_eq {p : TcbPtr} (h : addToScheduler pol s p = some s') :
    s'.mutex = s.mutex ∧ s'.tcb = s.tcb ∧ s'.context = s.context ∧
      (pol = .rr → s'.rrQueue = s.rrQueue ++ [p]) := by
  obtain ⟨⟨rr, psjf, mlfq, cfs, rfl⟩, -⟩ := addToScheduler_spec h
  refine ⟨rfl, rfl, rfl, ?_⟩
  rintro rfl
  exact (congrArg State.rrQueue (Option.some.inj h)).symm

/-- Threads enter the run queue and the wait queue at the tail. An unlock takes the head of the
wait queue, and makes it ready. -/
structure Queues (pol : Policy) (op : Op) (reply : Option Reply) (s s₁ : State) : Prop where
  rrQueue : pol = .rr → ∃ added, s₁.rrQueue = s.rrQueue ++ added
  waitQueue : ∀ m, op ≠ .mutexInit m → ¬ (op = .unlock m ∧ reply = some (.code 0)) →
    ∃ added, (s₁.mutex m).waitQueue = (s.mutex m).waitQueue ++ added
  unlock : ∀ m, op = .unlock m → reply = some (.code 0) →
    (s₁.mutex m).waitQueue = (s.mutex m).waitQueue.tail ∧
      ∀ w, (s.mutex m).waitQueue.head? = some w → s₁.stateOf w = .ready ∧ w ∈ queued pol s₁

/-- What comes back from the call. -/
def After.reply : After → Option Reply
  | .ret reply => some reply
  | .enter _ => none

/-- A call that is no unlock and adds one thread at most. -/
theorem Queues.of_eq (hrr : pol = .rr → ∃ added, s₁.rrQueue = s.rrQueue ++ added)
    (hmutex : ∀ m, op ≠ .mutexInit m → ∃ added,
      (s₁.mutex m).waitQueue = (s.mutex m).waitQueue ++ added)
    (hop : ∀ m, op ≠ .unlock m) (reply : Option Reply) : Queues pol op reply s s₁ where
  rrQueue := hrr
  waitQueue m hinit _ := hmutex m hinit
  unlock m hm := absurd hm (hop m)

theorem Queues.of_same (hrr : s₁.rrQueue = s.rrQueue) (hmutex : s₁.mutex = s.mutex)
    (hop : ∀ m, op ≠ .unlock m) (reply : Option Reply) : Queues pol op reply s s₁ :=
  .of_eq (fun _ => ⟨[], by rw [hrr, List.append_nil]⟩)
    (fun m _ => ⟨[], by rw [hmutex, List.append_nil]⟩) hop reply

theorem Queues.of_add {s₂ : State} {p : TcbPtr} (hadd : addToScheduler pol s₂ p = some s')
    (hrr : s₂.rrQueue = s.rrQueue) (hmutex : s₂.mutex = s.mutex) (hrr' : s₁.rrQueue = s'.rrQueue)
    (hmutex' : s₁.mutex = s'.mutex) (hop : ∀ m, op ≠ .unlock m) (reply : Option Reply) :
    Queues pol op reply s s₁ := by
  obtain ⟨hm, -, -, hq⟩ := addToScheduler_eq hadd
  refine .of_eq (fun hpol => ⟨[p], ?_⟩) (fun m _ => ⟨[], ?_⟩) hop reply
  · rw [hrr', hq hpol, hrr]
  · rw [hmutex', hm, hmutex, List.append_nil]

theorem setMutex_self (s : State) (m : MutexPtr) (mu : Mutex) : (s.setMutex m mu).mutex m = mu :=
  update_self _ _ _

theorem setMutex_of_ne {m' : MutexPtr} (h : m' ≠ m) (s : State) (mu : Mutex) :
    (s.setMutex m mu).mutex m' = s.mutex m' :=
  update_of_ne h _ _

/-- The loop of `worker_mutex_lock`, from a state with the queues of `s`. -/
theorem lockLoop_keepsOrder {s₂ : State} (he : lockLoop s₂ m = some (s₁, after))
    (hrr : s₂.rrQueue = s.rrQueue) (hmutex : s₂.mutex = s.mutex) (hop : ∀ m, op ≠ .unlock m) :
    Queues pol op after.reply s s₁ := by
  unfold lockLoop at he
  dsimp only at he
  split at he
  · split at he
    · exact absurd he (by simp)
    · next r hr =>
      obtain ⟨rfl, -⟩ := Prod.mk.inj (Option.some.inj he)
      by_cases hst : (s₂.tcb r).state ≠ .blocked
      · -- the thread enters the wait queue
        rw [if_pos hst]
        refine .of_eq (fun _ => ⟨[], by rw [List.append_nil]; exact hrr⟩) (fun m' _ => ?_) hop _
        by_cases hm : m' = m
        · refine ⟨[r], ?_⟩
          rw [hm, ← hmutex]
          exact congrArg Mutex.waitQueue (setMutex_self _ m _)
        · refine ⟨[], ?_⟩
          rw [List.append_nil, ← hmutex]
          exact congrArg Mutex.waitQueue (setMutex_of_ne hm (s₂.setState r .blocked) _)
      · rw [if_neg hst]
        exact .of_same (s := s) (by exact hrr) (by exact hmutex) hop _
  · obtain ⟨rfl, -⟩ := Prod.mk.inj (Option.some.inj he)
    refine .of_eq (fun _ => ⟨[], by rw [List.append_nil]; exact hrr⟩) (fun m' _ => ⟨[], ?_⟩) hop _
    rw [List.append_nil, ← hmutex]
    by_cases hm : m' = m
    · rw [hm, setMutex_self]
    · rw [setMutex_of_ne hm]

theorem unlock_keepsOrder (he : unlock pol s m = some (s₁, after)) :
    Queues pol (.unlock m) after.reply s s₁ := by
  unfold unlock at he
  dsimp only at he
  split at he
  · obtain ⟨rfl, rfl⟩ := Prod.mk.inj (Option.some.inj he)
    exact ⟨fun _ => ⟨[], (List.append_nil _).symm⟩,
      fun m' _ _ => ⟨[], (List.append_nil _).symm⟩, fun m' _ h0 => absurd h0 (by simp [After.reply])⟩
  split at he
  · next hnil =>
    obtain ⟨rfl, rfl⟩ := Prod.mk.inj (Option.some.inj he)
    refine ⟨fun _ => ⟨[], (List.append_nil _).symm⟩, fun m' _ hno => ⟨[], ?_⟩, fun m' hm _ => ?_⟩
    · have hne : m' ≠ m := by
        rintro rfl
        exact hno ⟨rfl, rfl⟩
      rw [List.append_nil, setMutex_of_ne hne]
    · obtain rfl := Op.unlock.inj hm
      rw [setMutex_self, hnil]
      exact ⟨rfl, fun w hw => absurd hw (by simp)⟩
  · next w rest hcons =>
    obtain ⟨s₂, hadd, heq⟩ := Option.map_eq_some_iff.mp he
    obtain ⟨rfl, rfl⟩ := Prod.mk.inj heq
    obtain ⟨hmutex, htcb, -, hq⟩ := addToScheduler_eq hadd
    have hqueued := (addToScheduler_spec hadd).2
    refine ⟨fun hpol => ⟨[w], hq hpol⟩, fun m' _ hno => ⟨[], ?_⟩, fun m' hm _ => ⟨?_, fun w' hw => ?_⟩⟩
    · have hne : m' ≠ m := by
        rintro rfl
        exact hno ⟨rfl, rfl⟩
      rw [List.append_nil, hmutex]
      exact congrArg Mutex.waitQueue (setMutex_of_ne hne s _)
    · obtain rfl := Op.unlock.inj hm
      rw [hmutex, hcons]
      exact congrArg Mutex.waitQueue (setMutex_self s m _)
    · obtain rfl := Op.unlock.inj hm
      rw [hcons] at hw
      obtain rfl : w = w' := by simpa using hw
      refine ⟨?_, ?_⟩
      · rw [State.stateOf, htcb]
        simp only [State.setState, State.setTcb, update_self]
      · rw [hqueued]
        exact Multiset.mem_add.mpr (.inr (Multiset.mem_singleton_self w))

/-- **What a call does to the queues**, up to the scheduler. -/
theorem act_keepsOrder (he : act pol s op = some (s₁, after)) : Queues pol op after.reply s s₁ := by
  by_cases hun : ∃ m, op = .unlock m
  · obtain ⟨m, rfl⟩ := hun
    exact unlock_keepsOrder (act_call (by simp) he).2
  have hop : ∀ m, op ≠ .unlock m := fun m hm => hun ⟨m, hm⟩
  by_cases hres : op = .resume
  · subst hres
    have hres := act_resume he
    unfold resume at hres
    split at hres
    · exact absurd hres (by simp)
    · exact lockLoop_keepsOrder hres rfl rfl hop
    · obtain ⟨rfl, -⟩ := Prod.mk.inj (Option.some.inj hres)
      exact .of_same (s := s) (by rfl) (by rfl) hop _
    · obtain ⟨rfl, -⟩ := Prod.mk.inj (Option.some.inj hres)
      exact .of_same (s := s) (by rfl) (by rfl) hop _
  have hcall := (act_call hres he).2
  cases op with
  | resume => exact absurd rfl hres
  | tick =>
    unfold call at hcall
    dsimp only at hcall
    split at hcall <;>
    · obtain ⟨rfl, -⟩ := Prod.mk.inj (Option.some.inj hcall)
      exact .of_same (s := s) (by rfl) (by rfl) hop _
  | yield =>
    unfold call at hcall
    dsimp only at hcall
    split at hcall <;>
    · obtain ⟨rfl, -⟩ := Prod.mk.inj (Option.some.inj hcall)
      exact .of_same (s := s) (by rfl) (by rfl) hop _
  | exit v =>
    have hexit : exit pol s v = some (s₁, after) := hcall
    unfold exit at hexit
    split at hexit
    · exact absurd hexit (by simp)
    dsimp only at hexit
    split at hexit
    · obtain ⟨rfl, -⟩ := Prod.mk.inj (Option.some.inj hexit)
      exact .of_same (s := s) (by rfl) (by rfl) hop _
    · obtain ⟨s₂, hadd, heq⟩ := Option.map_eq_some_iff.mp hexit
      obtain ⟨rfl, -⟩ := Prod.mk.inj heq
      exact .of_add hadd (by rfl) (by rfl) (by rfl) (by rfl) hop _
  | join thread =>
    have hjoin : join s thread = some (s₁, after) := hcall
    unfold join at hjoin
    split at hjoin
    · obtain ⟨rfl, -⟩ := Prod.mk.inj (Option.some.inj hjoin)
      exact .of_same (s := s) (by rfl) (by rfl) hop _
    split at hjoin
    · exact absurd hjoin (by simp)
    dsimp only at hjoin
    split at hjoin
    · obtain ⟨rfl, -⟩ := Prod.mk.inj (Option.some.inj hjoin)
      exact .of_same (s := s) (by rfl) (by rfl) hop _
    split at hjoin
    · obtain ⟨rfl, -⟩ := Prod.mk.inj (Option.some.inj hjoin)
      exact .of_same (s := s) (by rfl) (by rfl) hop _
    split at hjoin <;>
    · obtain ⟨rfl, -⟩ := Prod.mk.inj (Option.some.inj hjoin)
      exact .of_same (s := s) (by rfl) (by rfl) hop _
  | lock m => exact lockLoop_keepsOrder hcall rfl rfl hop
  | unlock m => exact absurd rfl (hop m)
  | mutexInit m =>
    obtain ⟨rfl, -⟩ := Prod.mk.inj (Option.some.inj hcall)
    refine .of_eq (s := s) (fun _ => ⟨[], ?_⟩) (fun m' hm => ⟨[], ?_⟩) hop _
    · exact (List.append_nil _).symm
    have hne : m' ≠ m := by
      rintro rfl
      exact hm rfl
    rw [List.append_nil, setMutex_of_ne hne]
  | mutexDestroy m =>
    obtain ⟨rfl, -⟩ := Prod.mk.inj (Option.some.inj hcall)
    exact .of_same (s := s) (by rfl) (by rfl) hop _
  | create u fresh =>
    have hcreate : create pol s u fresh = some (s₁, after) := hcall
    unfold create at hcreate
    split at hcreate
    · obtain ⟨s₂, hadd, heq⟩ := Option.map_eq_some_iff.mp hcreate
      obtain ⟨rfl, -⟩ := Prod.mk.inj heq
      exact .of_add hadd (by rfl) (by rfl) (by rfl) (by rfl) hop _
    · exact absurd hcreate (by simp)
  | createFails stack =>
    have hcreate : createFails s stack = some (s₁, after) := hcall
    unfold createFails at hcreate
    split at hcreate
    · split at hcreate
      · obtain ⟨rfl, -⟩ := Prod.mk.inj (Option.some.inj hcreate)
        exact .of_same (s := s) (by rfl) (by rfl) hop _
      · exact absurd hcreate (by simp)
    · obtain ⟨rfl, -⟩ := Prod.mk.inj (Option.some.inj hcreate)
      exact .of_same (s := s) (by rfl) (by rfl) hop _

/-! ### The run queue of the round robin policy -/

/-- A dispatch takes the head of the queue, which the thread that left may have joined before. -/
theorem schedule_rr {entry disp : ℤ} {result : Option TcbPtr}
    (h : schedule .rr s entry disp = some (s', result)) : ∃ added,
      (result = none ∧ s'.rrQueue = s.rrQueue ++ added) ∨
      ∃ n, result = some n ∧ s.rrQueue ++ added = n :: s'.rrQueue ∧ s'.runningTcb = some n ∧
        s'.cpu = s.context n ∧ s'.stateOf n = .running := by
  obtain ⟨s₁, hleave, hsched⟩ := Option.bind_eq_some_iff.mp h
  have hadded : ∃ added, s₁.rrQueue = s.rrQueue ++ added := by
    have hadd : ∀ {s₂ : State} {p : TcbPtr}, addToScheduler .rr s₂ p = some s₁ →
        s₂.rrQueue = s.rrQueue → ∃ added, s₁.rrQueue = s.rrQueue ++ added :=
      fun hadd hrr => ⟨[_], by rw [(addToScheduler_eq hadd).2.2.2 rfl, hrr]⟩
    unfold leave at hleave
    split at hleave
    · exact ⟨[], by rw [← Option.some.inj hleave, List.append_nil]⟩
    dsimp only at hleave
    split at hleave
    · exact hadd hleave rfl
    · exact hadd hleave rfl
    · exact ⟨[], by rw [← Option.some.inj hleave, List.append_nil]⟩
    · exact ⟨[], by rw [← Option.some.inj hleave, List.append_nil]⟩
  obtain ⟨added, hadded⟩ := hadded
  have hcontext : s₁.context = s.context := (leave_keeps hleave).context
  refine ⟨added, ?_⟩
  rw [← hadded]
  have hrr : schedRr s₁ = some (s', result) := hsched
  unfold schedRr at hrr
  split at hrr
  · next n rest hq =>
    obtain ⟨rfl, rfl⟩ := Prod.mk.inj (Option.some.inj hrr)
    refine .inr ⟨n, rfl, hq, rfl, congrFun hcontext n, ?_⟩
    simp only [State.stateOf, State.setTcb, update_self]
  · next hq =>
    refine .inl ?_
    split at hrr
    · obtain ⟨rfl, rfl⟩ := Prod.mk.inj (Option.some.inj hrr)
      exact ⟨rfl, rfl⟩
    split at hrr
    · obtain ⟨rfl, rfl⟩ := Prod.mk.inj (Option.some.inj hrr)
      exact ⟨rfl, rfl⟩
    · exact absurd hrr (by simp)

/-- Whether the step dispatches a thread. -/
def dispatches (l : Label) : ℕ :=
  if l.switch.any fun sw => sw.next.isSome then 1 else 0

/-- What one step does to the run queue. -/
theorem rr_step (hs : step .rr s l.op l.entry l.dispatch = some (s', l.reply, l.switch)) :
    ∃ added, (dispatches l = 0 ∧ s'.rrQueue = s.rrQueue ++ added) ∨
      ∃ n, dispatches l = 1 ∧ s.rrQueue ++ added = n :: s'.rrQueue ∧ s'.runningTcb = some n ∧
        s'.stateOf n = .running ∧ ∀ sw, l.switch = some sw → sw.next = some (s'.idOf n) := by
  unfold step at hs
  split at hs
  · exact absurd hs (by simp)
  · next s₁ reply hact =>
    obtain ⟨rfl, heq⟩ := Prod.mk.inj (Option.some.inj hs)
    obtain ⟨added, hadded⟩ := (act_keepsOrder hact).rrQueue rfl
    refine ⟨added, .inl ⟨?_, hadded⟩⟩
    rw [dispatches, ← (Prod.mk.inj heq).2]
    rfl
  · next s₁ why hact =>
    obtain ⟨added, hadded⟩ := (act_keepsOrder hact).rrQueue rfl
    split at hs
    · obtain ⟨⟨s₂, result⟩, hsched, heq⟩ := Option.map_eq_some_iff.mp hs
      obtain ⟨rfl, hrest⟩ := Prod.mk.inj heq
      obtain ⟨-, hsw⟩ := Prod.mk.inj hrest
      obtain ⟨added', ⟨rfl, hq⟩ | ⟨n, rfl, hq, hrun, -, hst⟩⟩ := schedule_rr hsched
      · refine ⟨added ++ added', .inl ⟨?_, ?_⟩⟩
        · rw [dispatches, ← hsw]
          rfl
        · rw [← List.append_assoc, ← hadded]
          exact hq
      · refine ⟨added ++ added', .inr ⟨n, ?_, ?_, hrun, hst, fun sw h => ?_⟩⟩
        · rw [dispatches, ← hsw]
          rfl
        · rw [← List.append_assoc, ← hadded]
          exact hq
        · rw [← hsw] at h
          rw [← Option.some.inj h]
          rfl
    · exact absurd hs (by simp)

theorem fifo_rrQueue (Fresh : Tcb → Prop) : Fifo (library .rr Fresh) State.rrQueue dispatches := by
  intro s l s' hs
  obtain ⟨added, ⟨hd, hq⟩ | ⟨n, hd, hq, -⟩⟩ := rr_step hs.1
  · exact ⟨[], added, hq.symm, fun _ => hd.symm⟩
  · exact ⟨[n], added, hq, fun _ => hd.symm⟩

/-- **Round robin serves in turn.** A thread at place `k` of the run queue moves up by one with
every dispatch, and the dispatch after `k` others is its own. -/
theorem rr_turn {Fresh : Tcb → Prop} {ls : List Label} {k : ℕ}
    (hr : Run ((library .rr Fresh).startAt s) ls s₁) (ht : s.rrQueue[k]? = some t) :
    (servings dispatches ls ≤ k → s₁.rrQueue[k - servings dispatches ls]? = some t) ∧
    (servings dispatches ls = k → ∀ l s', (library .rr Fresh).step s₁ l s' → dispatches l = 1 →
      s'.runningTcb = some t ∧ s'.stateOf t = .running ∧
        ∀ sw, l.switch = some sw → sw.next = some (s'.idOf t)) := by
  have hturn := (fifo_rrQueue Fresh).turn hr ht
  refine ⟨hturn, ?_⟩
  rintro rfl l s' hs hl
  have hhead := hturn le_rfl
  rw [Nat.sub_self] at hhead
  obtain ⟨added, ⟨hd, -⟩ | ⟨n, -, hq, hrun, hst, hsw⟩⟩ := rr_step hs.1
  · omega
  -- what was taken is the head
  have hn : n = t := by
    rw [← List.head?_eq_getElem?] at hhead
    obtain ⟨rest, hrest⟩ := List.head?_eq_some_iff.mp hhead
    rw [hrest, List.cons_append] at hq
    exact (List.cons.inj hq).1.symm
  rw [← hn]
  exact ⟨hrun, hst, hsw⟩

/-- The main thread has created two threads, and the timer preempts it: thread `1` is
dispatched, and thread `2` is next. -/
theorem rr_turn_second : ∃ s ls s₁, Run ((library .rr (· = Tcb.zero)).startAt s) ls s₁ ∧
    s.rrQueue[1]? = some 2 ∧ servings dispatches ls = 1 ∧ s₁.rrQueue[0]? = some 2 ∧
      ∀ l s', (library .rr (· = Tcb.zero)).step s₁ l s' → dispatches l = 1 →
        s'.runningTcb = some 2 := by
  obtain ⟨s, hq, s₁, reply, sw, hstep, hsw⟩ : ∃ s, s.rrQueue[1]? = some 2 ∧
      ∃ s₁ reply sw, step .rr s .tick 0 0 = some (s₁, reply, sw) ∧
        servings dispatches [⟨.tick, 0, 0, reply, sw⟩] = 1 := by
    obtain ⟨ls, s, hperf, h⟩ : ∃ ls s, performIf (fun _ _ => True) .rr .first
        [(.create 1 Tcb.zero, 0, 0), (.create 2 Tcb.zero, 0, 0)] = some (ls, s) ∧
        s.rrQueue[1]? = some 2 ∧
        ∃ s₁ reply sw, step .rr s .tick 0 0 = some (s₁, reply, sw) ∧
          servings dispatches [⟨.tick, 0, 0, reply, sw⟩] = 1 :=
      ⟨_, _, rfl, rfl, _, _, _, rfl, rfl⟩
    exact ⟨s, h⟩
  have h0 : Run ((library .rr (· = Tcb.zero)).startAt s) [] s := .start rfl
  have hr : Run ((library .rr (· = Tcb.zero)).startAt s) [⟨.tick, 0, 0, reply, sw⟩] s₁ :=
    h0.step ⟨hstep, by simp⟩
  obtain ⟨hmove, hdisp⟩ := rr_turn hr hq
  refine ⟨s, _, s₁, hr, hq, hsw, ?_, fun l s' hs hl => (hdisp hsw l s' hs hl).1⟩
  have hplace := hmove hsw.le
  rwa [hsw] at hplace

/-! ### The wait queue of a mutex -/

/-- Whether the step gives the mutex up. -/
def unlocks (m : MutexPtr) (l : Label) : ℕ :=
  if l.op = .unlock m ∧ l.reply = .code 0 then 1 else 0

/-- What one step does to the wait queue. -/
theorem mutex_step (hs : step pol s l.op l.entry l.dispatch = some (s', l.reply, l.switch))
    (m : MutexPtr) (hinit : l.op ≠ .mutexInit m) :
    (unlocks m l = 0 ∧ ∃ added, (s'.mutex m).waitQueue = (s.mutex m).waitQueue ++ added) ∨
    (unlocks m l = 1 ∧ (s'.mutex m).waitQueue = (s.mutex m).waitQueue.tail ∧
      ∀ w, (s.mutex m).waitQueue.head? = some w → s'.stateOf w = .ready ∧ w ∈ queued pol s') := by
  unfold step at hs
  split at hs
  · exact absurd hs (by simp)
  · next s₁ reply hact =>
    have hq := act_keepsOrder hact
    obtain ⟨rfl, heq⟩ := Prod.mk.inj (Option.some.inj hs)
    obtain ⟨hreply, -⟩ := Prod.mk.inj heq
    by_cases hun : l.op = .unlock m ∧ l.reply = .code 0
    · refine .inr ⟨if_pos hun, ?_⟩
      exact hq.unlock m hun.1 (congrArg some (hreply.trans hun.2))
    · refine .inl ⟨if_neg hun, hq.waitQueue m hinit fun h => hun ⟨h.1, ?_⟩⟩
      exact hreply.symm.trans (Option.some.inj h.2)
  · next s₁ why hact =>
    have hq := act_keepsOrder hact
    split at hs
    · obtain ⟨⟨s₂, result⟩, hsched, heq⟩ := Option.map_eq_some_iff.mp hs
      obtain ⟨rfl, hrest⟩ := Prod.mk.inj heq
      obtain ⟨hreply, -⟩ := Prod.mk.inj hrest
      have hmutex : s₂.mutex = s₁.mutex := (schedule_keeps hsched).1.mutex
      have hno : ¬ (l.op = .unlock m ∧ l.reply = .code 0) := by
        rw [← hreply]
        simp
      obtain ⟨added, hadded⟩ := hq.waitQueue m hinit fun h => absurd h.2 (by simp [After.reply])
      exact .inl ⟨if_neg hno, added, by rw [← hadded, ← hmutex]⟩
    · exact absurd hs (by simp)

/-- The runs in which the mutex is not made anew. -/
def keepsMutex (pol : Policy) (Fresh : Tcb → Prop) (m : MutexPtr) : System State Label :=
  (library pol Fresh).restrict fun _ l => l.op ≠ .mutexInit m

theorem fifo_waitQueue (pol : Policy) (Fresh : Tcb → Prop) (m : MutexPtr) :
    Fifo (keepsMutex pol Fresh m) (fun s => (s.mutex m).waitQueue) (unlocks m) := by
  rintro s l s' ⟨hs, hinit⟩
  rcases mutex_step hs.1 m hinit with ⟨hl, added, hq⟩ | ⟨hl, hq, -⟩
  · exact ⟨[], added, hq.symm, fun _ => hl.symm⟩
  · dsimp only
    rw [hq]
    cases hw : (s.mutex m).waitQueue with
    | nil => exact ⟨[], [], rfl, fun hle => absurd (hl ▸ hle) (by simp)⟩
    | cons w rest => exact ⟨[w], [], List.append_nil _, fun _ => hl.symm⟩

/-- **A mutex wakes in turn.** A thread at place `k` of the wait queue moves up by one with every
successful unlock, and the unlock after `k` others makes it ready. -/
theorem mutex_turn {Fresh : Tcb → Prop} {ls : List Label} {k : ℕ}
    (hr : Run ((keepsMutex pol Fresh m).startAt s) ls s₁)
    (ht : (s.mutex m).waitQueue[k]? = some t) :
    (servings (unlocks m) ls ≤ k →
      (s₁.mutex m).waitQueue[k - servings (unlocks m) ls]? = some t) ∧
    (servings (unlocks m) ls = k → ∀ l s', (library pol Fresh).step s₁ l s' → l.op = .unlock m →
      l.reply = .code 0 → s'.stateOf t = .ready ∧ t ∈ queued pol s') := by
  have hturn := (fifo_waitQueue pol Fresh m).turn hr ht
  refine ⟨hturn, ?_⟩
  rintro rfl l s' hs hop hreply
  have hhead := hturn le_rfl
  rw [Nat.sub_self, ← List.head?_eq_getElem?] at hhead
  have hl : unlocks m l = 1 := if_pos ⟨hop, hreply⟩
  rcases mutex_step hs.1 m (by rw [hop]; simp) with ⟨hl', -⟩ | ⟨-, -, hw⟩
  · omega
  · exact hw t hhead

/-- The main thread holds the mutex, and thread `1` waits for it. -/
def waiterOps : List (Op × ℤ × ℤ) :=
  [(.create 1 Tcb.zero, 0, 0), (.lock 0, 0, 0), (.tick, 0, 0), (.lock 0, 0, 0)]

/-- A tick of the timer leaves the waiter in its place, and the unlock makes it ready. -/
theorem mutex_turn_unlock : ∃ s ls s₁ l s',
    Run ((keepsMutex .rr (· = Tcb.zero) 0).startAt s) ls s₁ ∧
    (library .rr (· = Tcb.zero)).step s₁ l s' ∧ (s.mutex 0).waitQueue[0]? = some 1 ∧
    (s₁.mutex 0).waitQueue[0]? = some 1 ∧ s'.stateOf 1 = .ready ∧ 1 ∈ queued .rr s' := by
  obtain ⟨s, hq, s₁, reply, sw, hstep, s', hunlock⟩ : ∃ s, (s.mutex 0).waitQueue[0]? = some 1 ∧
      ∃ s₁ reply sw, step .rr s .tick 0 0 = some (s₁, reply, sw) ∧
        ∃ s', step .rr s₁ (.unlock 0) 0 0 = some (s', .code 0, none) := by
    obtain ⟨ls, s, hperf, h⟩ : ∃ ls s,
        performIf (fun _ _ => True) .rr .first waiterOps = some (ls, s) ∧
        (s.mutex 0).waitQueue[0]? = some 1 ∧
        ∃ s₁ reply sw, step .rr s .tick 0 0 = some (s₁, reply, sw) ∧
          ∃ s', step .rr s₁ (.unlock 0) 0 0 = some (s', .code 0, none) :=
      ⟨_, _, rfl, rfl, _, _, _, rfl, _, rfl⟩
    exact ⟨s, h⟩
  have h0 : Run ((keepsMutex .rr (· = Tcb.zero) 0).startAt s) [] s := .start rfl
  have hr : Run ((keepsMutex .rr (· = Tcb.zero) 0).startAt s) [⟨.tick, 0, 0, reply, sw⟩] s₁ :=
    h0.step ⟨⟨hstep, by simp⟩, by simp⟩
  have hs : (library .rr (· = Tcb.zero)).step s₁ ⟨.unlock 0, 0, 0, .code 0, none⟩ s' :=
    ⟨hunlock, by simp⟩
  obtain ⟨hmove, hready⟩ := mutex_turn hr hq
  obtain ⟨hst, hqueued⟩ := hready rfl _ s' hs rfl rfl
  exact ⟨s, _, s₁, _, s', hr, hs, hq, hmove (Nat.zero_le 0), hst, hqueued⟩

end

end Library

end ThreadWorker
