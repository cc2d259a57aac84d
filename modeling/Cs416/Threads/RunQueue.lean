import Cs416.Threads.Library

/-!
# What the scheduler does to the run queue

`queued` is the multiset of the threads in the run queue of the policy. `addToScheduler_spec`
and `schedule_spec` say what the policies have in common: `schedule` puts back the thread that
left the CPU, unless it is blocked or has ended, and takes the thread that it dispatches. Under
MLFQ a thread that yields is put back twice, by `schedule` and by `sched_mlfq`.
-/

open Function

namespace ThreadWorker

namespace Library

/-! ### The levels of MLFQ -/

/-- The threads of `n` levels, from level `i` on. -/
def inLevels (levels : ℕ → List TcbPtr) : (n i : ℕ) → Multiset TcbPtr
  | 0, _ => 0
  | n + 1, i => ↑(levels i) + inLevels levels n (i + 1)

section

variable {levels levels' : ℕ → List TcbPtr} {n i k : ℕ} {p : TcbPtr}

theorem inLevels_congr (h : ∀ j, i ≤ j → levels' j = levels j) :
    inLevels levels' n i = inLevels levels n i := by
  induction n generalizing i with
  | zero => rfl
  | succ n ih => rw [inLevels, inLevels, h i le_rfl, ih fun j hj => h j (by omega)]

theorem inLevels_append (hi : i ≤ k) (hk : k < i + n) :
    inLevels (update levels k (levels k ++ [p])) n i = inLevels levels n i + {p} := by
  induction n generalizing i with
  | zero => omega
  | succ n ih =>
    rw [inLevels, inLevels]
    by_cases hik : i = k
    · subst hik
      have hrest : inLevels (update levels i (levels i ++ [p])) n (i + 1)
          = inLevels levels n (i + 1) :=
        inLevels_congr fun j hj => update_of_ne (by omega) _ _
      rw [hrest, update_self, ← Multiset.coe_add, Multiset.coe_singleton, add_right_comm]
    · rw [update_of_ne hik, ih (by omega) (by omega), add_assoc]

/-- The search of `sched_mlfq` takes a thread if there is one. -/
theorem takeLevel_eq_none : takeLevel levels n i = none ↔ inLevels levels n i = 0 := by
  induction n generalizing i with
  | zero => exact iff_of_true rfl rfl
  | succ n ih =>
    rw [takeLevel, inLevels]
    cases hl : levels i with
    | nil => simpa using ih
    | cons t rest => simp

theorem takeLevel_of_lt (h : takeLevel levels n i = some (p, levels')) (hk : k < i) :
    levels' k = levels k := by
  induction n generalizing i with
  | zero => exact absurd h (by simp [takeLevel])
  | succ n ih =>
    rw [takeLevel] at h
    split at h
    · exact ih h (by omega)
    · obtain ⟨rfl, rfl⟩ := Prod.mk.inj (Option.some.inj h)
      exact update_of_ne hk.ne _ _

theorem takeLevel_eq_some (h : takeLevel levels n i = some (p, levels')) :
    inLevels levels' n i + {p} = inLevels levels n i := by
  induction n generalizing i with
  | zero => exact absurd h (by simp [takeLevel])
  | succ n ih =>
    rw [takeLevel] at h
    rw [inLevels, inLevels]
    cases hl : levels i with
    | nil =>
      rw [hl] at h
      rw [takeLevel_of_lt h (Nat.lt_succ_self i), hl, add_assoc, ih h]
    | cons t rest =>
      rw [hl] at h
      obtain ⟨rfl, rfl⟩ := Prod.mk.inj (Option.some.inj h)
      have hrest : inLevels (update levels i rest) n (i + 1) = inLevels levels n (i + 1) :=
        inLevels_congr fun j hj => update_of_ne (by omega) _ _
      rw [hrest, update_self, ← Multiset.cons_coe, ← Multiset.singleton_add]
      abel

end

/-! ### The run queue of each policy -/

/-- The threads in the run queue. -/
def queued (pol : Policy) (s : State) : Multiset TcbPtr :=
  match pol with
  | .psjf => s.psjfHeap.contents
  | .mlfq => inLevels s.mlfqLevels maxMlfqLevels 0
  | .cfs => s.cfsHeap.contents
  | .rr => s.rrQueue

/-- Fields of a control block that the scheduler keeps. -/
structure SameCall (t t' : Tcb) : Prop where
  id : t'.id = t.id
  retval : t'.retval = t.retval
  waitingThread : t'.waitingThread = t.waitingThread
  joined : t'.joined = t.joined

theorem SameCall.refl (t : Tcb) : SameCall t t := ⟨rfl, rfl, rfl, rfl⟩

theorem SameCall.trans {t₁ t₂ t₃ : Tcb} (h₁ : SameCall t₁ t₂) (h₂ : SameCall t₂ t₃) :
    SameCall t₁ t₃ :=
  ⟨h₂.id.trans h₁.id, h₂.retval.trans h₁.retval, h₂.waitingThread.trans h₁.waitingThread,
    h₂.joined.trans h₁.joined⟩

/-- What a part of the scheduler keeps, with the states of the threads as `state` says. -/
structure Keeps (s s' : State) (state : TcbPtr → ThreadState) : Prop where
  allocated : s'.allocated = s.allocated
  table : s'.table = s.table
  threadCount : s'.threadCount = s.threadCount
  nextThreadId : s'.nextThreadId = s.nextThreadId
  mutex : s'.mutex = s.mutex
  mainTcb : s'.mainTcb = s.mainTcb
  context : s'.context = s.context
  same : ∀ p, SameCall (s.tcb p) (s'.tcb p)
  state : ∀ p, (s'.tcb p).state = state p

theorem Keeps.trans {s₁ s₂ s₃ : State} {st st' : TcbPtr → ThreadState} (h₁ : Keeps s₁ s₂ st)
    (h₂ : Keeps s₂ s₃ st') : Keeps s₁ s₃ st' :=
  ⟨h₂.allocated.trans h₁.allocated, h₂.table.trans h₁.table, h₂.threadCount.trans h₁.threadCount,
    h₂.nextThreadId.trans h₁.nextThreadId, h₂.mutex.trans h₁.mutex, h₂.mainTcb.trans h₁.mainTcb,
    h₂.context.trans h₁.context, fun p => (h₁.same p).trans (h₂.same p), h₂.state⟩

/-- The states of the threads. -/
def State.stateOf (s : State) (p : TcbPtr) : ThreadState := (s.tcb p).state

theorem Keeps.refl (s : State) : Keeps s s s.stateOf :=
  ⟨rfl, rfl, rfl, rfl, rfl, rfl, rfl, fun _ => .refl _, fun _ => rfl⟩

/-- What `schedule` adds to the run queue for the thread `r` that left the CPU. -/
def requeued (pol : Policy) (r : TcbPtr) : ThreadState → Multiset TcbPtr
  | .running => {r}
  | .ready => if pol = .mlfq then {r} + {r} else {r}
  | .blocked => 0
  | .terminated => 0

/-- A preempted thread is ready. -/
def settled (st : ThreadState) : ThreadState := if st = .running then .ready else st

/-- What a call of `schedule` on `s` does when it dispatches `n`, after `r` left the CPU. -/
structure Scheduled (pol : Policy) (s : State) (r : TcbPtr) (s' : State) (n : TcbPtr) : Prop where
  queue : queued pol s' + {n} = queued pol s + requeued pol r (s.stateOf r)
  keeps : Keeps s s' (update (update s.stateOf r (settled (s.stateOf r))) n .running)
  runningTcb : s'.runningTcb = some n
  cpu : s'.cpu = s.context n

section

variable {pol : Policy} {s s' : State} {p r next : TcbPtr} {now entry disp : ℤ}
  {result : Option TcbPtr}

/-- **`add_to_scheduler` adds the thread**, and touches nothing but the run queue. -/
theorem addToScheduler_spec (h : addToScheduler pol s p = some s') :
    (∃ rr psjf mlfq cfs, s' =
      { s with rrQueue := rr, psjfHeap := psjf, mlfqLevels := mlfq, cfsHeap := cfs }) ∧
    queued pol s' = queued pol s + {p} := by
  cases pol with
  | psjf =>
    obtain ⟨heap, hpush, rfl⟩ := Option.map_eq_some_iff.mp h
    exact ⟨⟨_, _, _, _, rfl⟩, MinHeap.contents_push hpush⟩
  | mlfq =>
    rw [addToScheduler] at h
    split at h
    · next hlevel =>
      obtain rfl := Option.some.inj h
      refine ⟨⟨_, _, _, _, rfl⟩, ?_⟩
      exact inLevels_append (Nat.zero_le _) (by omega)
    · exact absurd h (by simp)
  | cfs =>
    obtain ⟨heap, hpush, rfl⟩ := Option.map_eq_some_iff.mp h
    exact ⟨⟨_, _, _, _, rfl⟩, MinHeap.contents_push hpush⟩
  | rr =>
    obtain rfl := Option.some.inj h
    exact ⟨⟨_, _, _, _, rfl⟩, rfl⟩

/-- Storing a control block. -/
theorem setTcb_keeps {t : Tcb} (ht : SameCall (s.tcb r) t) :
    Keeps s (s.setTcb r t) (update s.stateOf r t.state) := by
  refine ⟨rfl, rfl, rfl, rfl, rfl, rfl, rfl, fun q => ?_, fun q => ?_⟩
  · change SameCall (s.tcb q) (update s.tcb r t q)
    by_cases hqr : q = r
    · rw [hqr, update_self]
      exact ht
    · rw [update_of_ne hqr]
      exact .refl _
  · change (update s.tcb r t q).state = _
    by_cases hqr : q = r
    · rw [hqr, update_self, update_self]
    · rw [update_of_ne hqr, update_of_ne hqr]
      rfl

/-- Storing a control block with the same state. -/
theorem setTcb_keeps_state {t : Tcb} (ht : SameCall (s.tcb r) t) (hst : t.state = s.stateOf r) :
    Keeps s (s.setTcb r t) s.stateOf := by
  have hk := setTcb_keeps ht
  rwa [hst, update_eq_self] at hk

/-- The other fields of the state do not matter. -/
theorem Keeps.of_eq {st : TcbPtr → ThreadState} (h : Keeps s s' st) {s₁ : State}
    (htcb : s₁.tcb = s'.tcb) (halloc : s₁.allocated = s'.allocated) (htable : s₁.table = s'.table)
    (hcount : s₁.threadCount = s'.threadCount) (hid : s₁.nextThreadId = s'.nextThreadId)
    (hmutex : s₁.mutex = s'.mutex) (hmain : s₁.mainTcb = s'.mainTcb)
    (hctx : s₁.context = s'.context) : Keeps s s₁ st where
  allocated := halloc.trans h.allocated
  table := htable.trans h.table
  threadCount := hcount.trans h.threadCount
  nextThreadId := hid.trans h.nextThreadId
  mutex := hmutex.trans h.mutex
  mainTcb := hmain.trans h.mainTcb
  context := hctx.trans h.context
  same p := by
    rw [htcb]
    exact h.same p
  state p := by
    rw [htcb]
    exact h.state p

/-- A control block changes, and then the thread is added. -/
theorem addToScheduler_setTcb {t : Tcb} (h : addToScheduler pol (s.setTcb r t) p = some s')
    (ht : SameCall (s.tcb r) t) :
    Keeps s s' (update s.stateOf r t.state) ∧ s'.runningTcb = s.runningTcb ∧
      queued pol s' = queued pol s + {p} := by
  obtain ⟨⟨rr, psjf, mlfq, cfs, rfl⟩, hq⟩ := addToScheduler_spec h
  exact ⟨(setTcb_keeps ht).of_eq rfl rfl rfl rfl rfl rfl rfl rfl, rfl, hq⟩

theorem State.setTcb_setTcb (s : State) (r : TcbPtr) (t t' : Tcb) :
    (s.setTcb r t).setTcb r t' = s.setTcb r t' := by
  unfold State.setTcb
  rw [update_idem]

/-- A preempted thread goes back to the run queue; under MLFQ `sched_mlfq` sees to that. -/
theorem preempt_spec (h : preempt pol (s.setState r .ready) r now = some s') :
    Keeps s s' (update s.stateOf r .ready) ∧ s'.runningTcb = s.runningTcb ∧
      queued pol s' + (if pol = .mlfq then {r} else 0) = queued pol s + {r} := by
  have hself : (s.setState r .ready).tcb r = { s.tcb r with state := .ready } :=
    update_self _ _ _
  -- every policy but MLFQ hands the thread to `add_to_scheduler` here
  have hadd : ∀ {pol' : Policy} {t : Tcb},
      addToScheduler pol' ((s.setState r .ready).setTcb r t) r = some s' →
      SameCall (s.tcb r) t → t.state = .ready → Keeps s s' (update s.stateOf r .ready) ∧ s'.runningTcb = s.runningTcb ∧
        queued pol' s' + 0 = queued pol' s + {r} := by
    intro pol' t h ht hst
    rw [State.setState, State.setTcb_setTcb] at h
    obtain ⟨hk, hr, hq⟩ := addToScheduler_setTcb h ht
    rw [hst] at hk
    exact ⟨hk, hr, by rw [hq, add_zero]⟩
  unfold preempt at h
  rw [hself] at h
  cases pol <;> dsimp only at h
  case psjf => exact hadd h ⟨rfl, rfl, rfl, rfl⟩ rfl
  case cfs =>
    rw [updateVruntime, hself] at h
    exact hadd h ⟨rfl, rfl, rfl, rfl⟩ rfl
  case rr => exact hadd h ⟨rfl, rfl, rfl, rfl⟩ rfl
  case mlfq =>
    rw [State.setState, State.setTcb_setTcb] at h
    -- under MLFQ only the ticks are counted, and a promotion that is due finds nothing
    have hs' : s' = { s.setTcb r { s.tcb r with state := .ready, timeUsed := (s.tcb r).timeUsed + 1 }
        with globalTicks := s.globalTicks + 1 } := by
      split at h
      · unfold promoteAllThreads at h
        split at h
        · exact (Option.some.inj h).symm
        · exact absurd h (by simp)
      · exact (Option.some.inj h).symm
    subst hs'
    have ht : SameCall (s.tcb r)
        { s.tcb r with state := .ready, timeUsed := (s.tcb r).timeUsed + 1 } := ⟨rfl, rfl, rfl, rfl⟩
    exact ⟨(setTcb_keeps ht).of_eq rfl rfl rfl rfl rfl rfl rfl rfl, rfl, rfl⟩

/-- What `schedule` does with the thread that left the CPU. What MLFQ still has to add is what
`sched_mlfq` adds. -/
theorem leave_spec (hr : s.runningTcb = some r) (h : leave pol s now = some s') :
    Keeps s s' (update s.stateOf r (settled (s.stateOf r))) ∧
      s'.runningTcb = (if s.stateOf r = .terminated then none else some r) ∧
      queued pol s' + (if pol = .mlfq ∧ s'.stateOf r = .ready then {r} else 0)
        = queued pol s + requeued pol r (s.stateOf r) := by
  have hsame : update s.stateOf r (s.stateOf r) = s.stateOf := update_eq_self _ _
  rw [leave, hr] at h
  dsimp only at h
  cases hst : (s.tcb r).state with
  | running =>
    have hst' : s.stateOf r = .running := hst
    rw [hst] at h
    obtain ⟨hk, hrun, hq⟩ := preempt_spec h
    have hready : s'.stateOf r = .ready := (hk.state r).trans (update_self _ _ _)
    rw [hst', hrun, hr, hready]
    exact ⟨hk, rfl, by simpa [requeued] using hq⟩
  | ready =>
    have hst' : s.stateOf r = .ready := hst
    rw [hst] at h
    dsimp only at h
    obtain ⟨hk, hrun, hq⟩ := addToScheduler_setTcb h ⟨rfl, rfl, rfl, rfl⟩
    have hready : s'.stateOf r = .ready := by
      exact (hk.state r).trans (update_self _ _ _)
    rw [hst', hrun, hr, hready, hq]
    refine ⟨?_, rfl, ?_⟩
    · exact hk
    · by_cases hm : pol = .mlfq <;> simp [requeued, hm, add_assoc]
  -- a thread that blocked goes nowhere
  | blocked =>
    have hst' : s.stateOf r = .blocked := hst
    rw [hst] at h
    obtain rfl := Option.some.inj h
    rw [hst'] at hsame ⊢
    refine ⟨?_, hr, by simp [requeued]⟩
    rw [show settled .blocked = .blocked from rfl, hsame]
    exact .refl s
  -- a thread that ended goes nowhere, and `running_tcb` is `NULL` from here on
  | terminated =>
    have hst' : s.stateOf r = .terminated := hst
    rw [hst] at h
    obtain rfl := Option.some.inj h
    rw [hst'] at hsame ⊢
    refine ⟨?_, rfl, ?_⟩
    · rw [show settled .terminated = .terminated from rfl, hsame]
      exact ⟨rfl, rfl, rfl, rfl, rfl, rfl, rfl, fun _ => .refl _, fun _ => rfl⟩
    · have hne : State.stateOf { s with runningTcb := none } r ≠ .ready := by
        change (s.tcb r).state ≠ .ready
        rw [hst]
        decide
      rw [if_neg fun h => hne h.2]
      rfl

/-- What the scheduling function of the policy does when it dispatches `n`. -/
structure Dispatched (s s' : State) (n : TcbPtr) : Prop where
  keeps : Keeps s s' (update s.stateOf n .running)
  runningTcb : s'.runningTcb = some n
  cpu : s'.cpu = s.context n

theorem dispatch_spec (s : State) (p : TcbPtr) : Dispatched s (dispatch s p).1 p :=
  ⟨(setTcb_keeps (t := { s.tcb p with state := .running, hasStarted := true })
    ⟨rfl, rfl, rfl, rfl⟩).of_eq rfl rfl rfl rfl rfl rfl rfl rfl, rfl, rfl⟩

/-- A dispatch after changes that keep the states of the threads. -/
theorem Dispatched.after {s₁ : State} (h : Dispatched s₁ s' p) (hk : Keeps s s₁ s.stateOf) :
    Dispatched s s' p := by
  have hst : s₁.stateOf = s.stateOf := funext hk.state
  have hk' := h.keeps
  rw [hst] at hk'
  refine ⟨hk.trans hk', h.runningTcb, ?_⟩
  rw [h.cpu, hk.context]

/-- The queues and the timer do not matter. -/
theorem keeps_queues (s : State) (rr : List TcbPtr) (psjf cfs : MinHeap)
    (mlfq : ℕ → List TcbPtr) (timer : ℤ) :
    Keeps s { s with rrQueue := rr, psjfHeap := psjf, mlfqLevels := mlfq, cfsHeap := cfs, timer := timer }
      s.stateOf :=
  (Keeps.refl s).of_eq rfl rfl rfl rfl rfl rfl rfl rfl

/-- What the scheduling function of a policy does: it takes a thread from the run queue and
dispatches it, or finds none there. -/
inductive Picks (pol : Policy) (s s' : State) (q : Multiset TcbPtr) : Option TcbPtr → Prop
  | some (n : TcbPtr) : queued pol s' + {n} = q → Dispatched s s' n → Picks pol s s' q (some n)
  | none : q = 0 → Picks pol s s' q none

theorem mlfqLoop_spec (h : mlfqLoop s = some (s', result)) :
    Picks .mlfq s s' (queued .mlfq s) result := by
  rw [mlfqLoop] at h
  split at h
  · next n levels htake =>
    obtain ⟨rfl, rfl⟩ := Prod.mk.inj (Option.some.inj h)
    exact .some n (takeLevel_eq_some htake)
      ((dispatch_spec _ n).after (keeps_queues s s.rrQueue _ _ levels s.timer))
  · next htake =>
    have hnone : result = none := by
      split at h
      · exact (congrArg Prod.snd (Option.some.inj h)).symm
      split at h
      · exact absurd h (by simp)
      · exact (congrArg Prod.snd (Option.some.inj h)).symm
    rw [hnone]
    exact .none (takeLevel_eq_none.mp htake)

theorem Picks.after {s₁ : State} {q : Multiset TcbPtr} (h : Picks pol s₁ s' q result)
    (hk : Keeps s s₁ s.stateOf) : Picks pol s s' q result := by
  cases h with
  | some n hq hd => exact .some n hq (hd.after hk)
  | none hq => exact .none hq

/-- What `sched_mlfq` adds to the run queue: once more the thread that left the CPU, when it is
ready. -/
def addedAgain (pol : Policy) (s : State) : Multiset TcbPtr :=
  match s.runningTcb with
  | some r => if pol = .mlfq ∧ s.stateOf r = .ready then {r} else 0
  | none => 0

theorem schedMlfq_spec (hrun : ∀ r, s.runningTcb = some r → s.stateOf r ≠ .running)
    (h : schedMlfq s = some (s', result)) :
    Picks .mlfq s s' (queued .mlfq s + addedAgain .mlfq s) result := by
  rw [schedMlfq] at h
  rw [addedAgain]
  -- no current thread: the loop starts at once
  split at h
  · next hr =>
    rw [hr, add_zero]
    exact mlfqLoop_spec h
  · next r hr =>
    have hne := hrun r hr
    rw [hr]
    dsimp only at h ⊢
    cases hst : (s.tcb r).state with
    | running => exact absurd hst hne
    -- the thread goes back to its level before the loop
    | ready =>
      have hready : s.stateOf r = .ready := hst
      rw [hst] at h
      obtain ⟨s₁, hadd, hloop⟩ := Option.bind_eq_some_iff.mp h
      obtain ⟨⟨rr, psjf, mlfq, cfs, rfl⟩, hq⟩ := addToScheduler_spec hadd
      rw [if_pos ⟨rfl, hready⟩, ← hq]
      exact (mlfqLoop_spec hloop).after (keeps_queues s rr psjf cfs mlfq s.timer)
    | blocked =>
      have hst' : s.stateOf r = .blocked := hst
      rw [hst] at h
      rw [if_neg (by simp [hst']), add_zero]
      exact mlfqLoop_spec h
    | terminated =>
      have hst' : s.stateOf r = .terminated := hst
      rw [hst] at h
      rw [if_neg (by simp [hst']), add_zero]
      exact (mlfqLoop_spec h).after ((Keeps.refl s).of_eq rfl rfl rfl rfl rfl rfl rfl rfl)

theorem sched_spec (hrun : ∀ r, s.runningTcb = some r → s.stateOf r ≠ .running)
    (h : sched pol s now = some (s', result)) :
    Picks pol s s' (queued pol s + addedAgain pol s) result := by
  -- only `sched_mlfq` adds a thread itself
  have hno : pol ≠ .mlfq → addedAgain pol s = 0 := by
    intro hpol
    unfold addedAgain
    split
    · exact if_neg fun h => hpol h.1
    · rfl
  cases pol with
  | psjf =>
    rw [hno (by decide), add_zero]
    obtain ⟨⟨n, heap⟩, hpop, heq⟩ := Option.map_eq_some_iff.mp h
    obtain ⟨rfl, rfl⟩ := Prod.mk.inj heq
    exact .some n (MinHeap.contents_pop hpop)
      ((dispatch_spec _ n).after (keeps_queues s s.rrQueue heap _ _ s.timer))
  | mlfq => exact schedMlfq_spec hrun h
  | cfs =>
    rw [hno (by decide), add_zero]
    unfold sched schedCfs at h
    dsimp only at h
    split at h
    · exact absurd h (by simp)
    · next r hr =>
      obtain ⟨⟨n, heap⟩, hpop, heq⟩ := Option.map_eq_some_iff.mp h
      obtain ⟨rfl, rfl⟩ := Prod.mk.inj heq
      have hq : heap.contents + {n} = s.cfsHeap.contents := MinHeap.contents_pop hpop
      -- the slice of the current thread changes no state
      have hslice : Keeps s (s.setTcb r { s.tcb r with cfsTimeslice := cfsSlice s.cfsHeap.size })
          s.stateOf := setTcb_keeps_state ⟨rfl, rfl, rfl, rfl⟩ rfl
      generalize s.setTcb r { s.tcb r with cfsTimeslice := cfsSlice s.cfsHeap.size } = s₁ at *
      have hst : s₁.stateOf = s.stateOf := funext hslice.state
      have htimer := keeps_queues s₁ s₁.rrQueue s₁.psjfHeap heap s₁.mlfqLevels (cfsSlice s.cfsHeap.size)
      rw [hst] at htimer
      refine .some n hq ((dispatch_spec _ n).after ?_ |>.after (hslice.trans htimer))
      exact setTcb_keeps_state ⟨rfl, rfl, rfl, rfl⟩ rfl
  | rr =>
    rw [hno (by decide), add_zero]
    unfold sched schedRr at h
    dsimp only at h
    split at h
    · next n rest hq =>
      obtain ⟨rfl, rfl⟩ := Prod.mk.inj (Option.some.inj h)
      refine .some n ?_ ((dispatch_spec _ n).after (keeps_queues s rest _ _ _ s.timer))
      change (rest : Multiset TcbPtr) + {n} = (s.rrQueue : Multiset TcbPtr)
      rw [hq, ← Multiset.cons_coe, ← Multiset.singleton_add, add_comm]
    -- with an empty queue `sched_rr` has no thread to give
    · next hq =>
      have hnone : result = none := by
        split at h
        · exact (congrArg Prod.snd (Option.some.inj h)).symm
        split at h
        · exact (congrArg Prod.snd (Option.some.inj h)).symm
        · exact absurd h (by simp)
      rw [hnone]
      refine .none ?_
      change (s.rrQueue : Multiset TcbPtr) = 0
      rw [hq]
      rfl

theorem settled_ne_running (st : ThreadState) : settled st ≠ .running := by
  cases st <;> decide

/-- **What `schedule` does** after `r` left the CPU: it dispatches a thread of the run queue, to
which it has added `r`, or finds that run queue empty. -/
theorem schedule_spec (hr : s.runningTcb = some r)
    (h : schedule pol s entry disp = some (s', result)) :
    (∃ n, result = some n ∧ Scheduled pol s r s' n) ∨
      (result = none ∧ queued pol s + requeued pol r (s.stateOf r) = 0) := by
  obtain ⟨s₁, hleave, hsched⟩ := Option.bind_eq_some_iff.mp h
  obtain ⟨hk, hrun, hq⟩ := leave_spec hr hleave
  have hst : s₁.stateOf = update s.stateOf r (settled (s.stateOf r)) := funext hk.state
  have hstr : s₁.stateOf r = settled (s.stateOf r) := by rw [hst, update_self]
  -- `sched_mlfq` sees the thread that left just when that is `READY`
  have hadded : addedAgain pol s₁ = if pol = .mlfq ∧ s₁.stateOf r = .ready then {r} else 0 := by
    rw [addedAgain, hrun]
    by_cases hterm : s.stateOf r = .terminated
    · have hne : s₁.stateOf r ≠ .ready := by
        rw [hstr, hterm]
        decide
      rw [if_pos hterm, if_neg fun h => hne h.2]
    · rw [if_neg hterm]
  have hne : ∀ p, s₁.runningTcb = some p → s₁.stateOf p ≠ .running := by
    intro p hp
    rw [hrun] at hp
    split at hp
    · exact absurd hp (by simp)
    · rw [← Option.some.inj hp, hstr]
      exact settled_ne_running _
  -- the two halves of `schedule` make up the queue: what is added before and by `sched_mlfq`
  have hpick := sched_spec hne hsched
  rw [hadded, hq] at hpick
  cases hpick with
  | some n hqueue hd =>
    refine .inl ⟨n, rfl, hqueue, ?_, hd.runningTcb, by rw [hd.cpu, hk.context]⟩
    have hd' := hd.keeps
    rw [hst] at hd'
    exact hk.trans hd'
  | none hempty => exact .inr ⟨rfl, hempty⟩

/-! ### What the scheduler leaves alone, also when it falls back to the main thread -/

theorem Keeps.weaken {st : TcbPtr → ThreadState} (h : Keeps s s' st) : Keeps s s' s'.stateOf :=
  ⟨h.allocated, h.table, h.threadCount, h.nextThreadId, h.mutex, h.mainTcb, h.context, h.same,
    fun _ => rfl⟩

theorem addToScheduler_keeps (h : addToScheduler pol s p = some s') :
    Keeps s s' s.stateOf ∧ s'.runningTcb = s.runningTcb := by
  obtain ⟨⟨rr, psjf, mlfq, cfs, rfl⟩, -⟩ := addToScheduler_spec h
  exact ⟨keeps_queues s rr psjf cfs mlfq s.timer, rfl⟩

theorem leave_keeps (h : leave pol s now = some s') : Keeps s s' s'.stateOf := by
  cases hr : s.runningTcb with
  | none =>
    rw [leave, hr] at h
    rw [← Option.some.inj h]
    exact .refl s
  | some r => exact (leave_spec hr h).1.weaken

/-- The fallback to the main thread. -/
structure FellBack (s s' : State) : Prop where
  keeps : Keeps s s' s'.stateOf
  runningTcb : s'.runningTcb = s.runningTcb
  cpu : s'.cpu = s.context s.mainTcb

theorem toMain_fellBack (s : State) : FellBack s (toMain s).1 :=
  ⟨(Keeps.refl s).of_eq rfl rfl rfl rfl rfl rfl rfl rfl, rfl, rfl⟩

theorem FellBack.after {s₁ : State} (h : FellBack s₁ s') (hk : Keeps s s₁ s₁.stateOf)
    (hr : s₁.runningTcb = s.runningTcb) : FellBack s s' :=
  ⟨hk.trans h.keeps, h.runningTcb.trans hr, by rw [h.cpu, hk.context, hk.mainTcb]⟩

theorem mlfqLoop_fellBack (h : mlfqLoop s = some (s', none)) : FellBack s s' := by
  rw [mlfqLoop] at h
  split at h
  · exact absurd (congrArg Prod.snd (Option.some.inj h)) (by simp [dispatch])
  · split_ifs at h <;> rw [show s' = _ from (congrArg Prod.fst (Option.some.inj h)).symm] <;>
      exact toMain_fellBack s

/-- Without a thread to dispatch the scheduling function falls back. -/
theorem sched_fellBack (hrun : ∀ r, s.runningTcb = some r → s.stateOf r ≠ .terminated)
    (h : sched pol s now = some (s', none)) : FellBack s s' := by
  cases pol with
  -- the heaps never fall back: `heap_pop` gives a thread or has no defined end
  | psjf =>
    obtain ⟨x, -, heq⟩ := Option.map_eq_some_iff.mp h
    exact absurd (congrArg Prod.snd heq) (by simp [dispatch])
  | mlfq =>
    rw [sched, schedMlfq] at h
    split at h
    · exact mlfqLoop_fellBack h
    · next r hr =>
      dsimp only at h
      split at h
      · split at h
        · obtain ⟨s₁, hadd, hloop⟩ := Option.bind_eq_some_iff.mp h
          obtain ⟨hk, hr₁, -⟩ := addToScheduler_setTcb hadd ⟨rfl, rfl, rfl, rfl⟩
          exact (mlfqLoop_fellBack hloop).after hk.weaken hr₁
        · exact absurd (congrArg Prod.snd (Option.some.inj h)) (by simp)
      · obtain ⟨s₁, hadd, hloop⟩ := Option.bind_eq_some_iff.mp h
        obtain ⟨hk, hr₁⟩ := addToScheduler_keeps hadd
        exact (mlfqLoop_fellBack hloop).after hk.weaken hr₁
      -- the current thread has not ended
      · next hst => exact absurd hst (hrun r hr)
      · exact mlfqLoop_fellBack h
  | cfs =>
    rw [sched, schedCfs] at h
    split at h
    · exact absurd h (by simp)
    · obtain ⟨x, -, heq⟩ := Option.map_eq_some_iff.mp h
      exact absurd (congrArg Prod.snd heq) (by simp [dispatch])
  | rr =>
    rw [sched, schedRr] at h
    split at h
    · exact absurd (congrArg Prod.snd (Option.some.inj h)) (by simp [dispatch])
    · split_ifs at h <;> rw [show s' = _ from (congrArg Prod.fst (Option.some.inj h)).symm] <;>
        exact toMain_fellBack s

/-- After `schedule` has put the thread back that left the CPU, none runs or has ended. -/
theorem leave_running (h : leave pol s now = some s') (hr : s'.runningTcb = some p) :
    s'.stateOf p ≠ .running ∧ s'.stateOf p ≠ .terminated ∧ s.runningTcb = some p := by
  cases hrun : s.runningTcb with
  | none =>
    rw [leave, hrun] at h
    rw [← Option.some.inj h, hrun] at hr
    exact absurd hr (by simp)
  | some r =>
    obtain ⟨hk, hrun', -⟩ := leave_spec hrun h
    rw [hr] at hrun'
    split at hrun'
    · exact absurd hrun' (by simp)
    · next hne =>
      obtain rfl := Option.some.inj hrun'
      have hst : s'.stateOf p = settled (s.stateOf p) := by
        rw [State.stateOf, hk.state, update_self]
      refine ⟨hst ▸ settled_ne_running _, ?_, rfl⟩
      rw [hst]
      cases hs : s.stateOf p with
      | terminated => exact absurd hs hne
      | running => decide
      | ready => decide
      | blocked => decide

/-- **`schedule` leaves the threads, the mutexes and the contexts alone**, and puts the context
of the thread it dispatches on the CPU, or that of the main thread. -/
theorem schedule_keeps (h : schedule pol s entry disp = some (s', result)) :
    Keeps s s' s'.stateOf ∧
      ((∃ n, result = some n ∧ s'.runningTcb = some n ∧ s'.cpu = s.context n) ∨
        result = none ∧ s'.cpu = s.context s.mainTcb ∧
          ∀ r, s.runningTcb = some r → s.stateOf r ≠ .terminated → s'.runningTcb = some r) := by
  obtain ⟨s₁, hleave, hsched⟩ := Option.bind_eq_some_iff.mp h
  have hk := leave_keeps hleave
  have hrun : ∀ r, s₁.runningTcb = some r → s₁.stateOf r ≠ .running ∧ s₁.stateOf r ≠ .terminated :=
    fun r hr => ⟨(leave_running hleave hr).1, (leave_running hleave hr).2.1⟩
  cases hres : result with
  | some n =>
    have hpick := sched_spec (fun r hr => (hrun r hr).1) hsched
    rw [hres] at hpick
    cases hpick with
    | some _ _ hd =>
      exact ⟨hk.trans hd.keeps.weaken, .inl ⟨n, rfl, hd.runningTcb, by rw [hd.cpu, hk.context]⟩⟩
  | none =>
    rw [hres] at hsched
    have hf := sched_fellBack (fun r hr => (hrun r hr).2) hsched
    refine ⟨hk.trans hf.keeps, .inr ⟨rfl, ?_, fun r hr hst => ?_⟩⟩
    · rw [hf.cpu, hk.context, hk.mainTcb]
    · rw [hf.runningTcb, (leave_spec hr hleave).2.1, if_neg hst]

end

end Library

end ThreadWorker
