import Cs416.Threads.HeapPolicies

/-!
# The shortest job under PSJF

Every call of `schedule` dispatches the ready thread with the least pair of `elapsed_quanta` and
`id` (`shortest_job`). The comparator returns the difference of two `long`s as an `int`, so it
compares by that pair as long as the counts stay within `2 ^ 31` of each other (`Close`). That the
heap does not overflow, and that there is a thread in it, is part of there being a step.
-/

open Function Lts

namespace ThreadWorker

namespace Library

/-- The order of PSJF. -/
def psjfKey (tcb : TcbPtr → Tcb) (t : TcbPtr) : ℤ ×ₗ ℕ := toLex ((tcb t).elapsedQuanta, (tcb t).id)

/-- The counts of the threads that are ready or run stay close together. -/
def Close (s : State) : Prop :=
  ∀ t t', s.allocated t = true → s.allocated t' = true →
    (s.tcb t).state = .ready ∨ (s.tcb t).state = .running →
    (s.tcb t').state = .ready ∨ (s.tcb t').state = .running →
    |(s.tcb t).elapsedQuanta - (s.tcb t').elapsedQuanta| < 2 ^ 31

/-- The runs under PSJF in which the counts stay close together. -/
def psjfRuns : System State Label where
  init := (library .psjf (· = Tcb.zero)).init
  step s l s' := (library .psjf (· = Tcb.zero)).step s l s' ∧ Close s'

/-- The timer preempts the thread with this `id`. -/
def isPreemption (id : ℕ) (l : Label) : Bool :=
  l.switch.any fun sw => sw.left = id ∧ sw.why = .preempted

/-- How often the timer has preempted the thread with this `id`. -/
def preemptions (id : ℕ) (ls : List Label) : ℕ := ls.countP (isPreemption id)

/-- **PSJF picks the shortest job** in the step `l` from `s` to `s'`, after the steps `ls`. -/
structure ShortestJob (ls : List Label) (s : State) (l : Label) (s' : State) : Prop where
  /-- `s₁` is the state in which the scheduler is entered, and `s₂` that in which it chooses: a
  thread that was preempted or yields is ready there. In between no key changes in the heap. -/
  least : ∀ sw, l.switch = some sw → ∃ s₁ s₂ n,
    act .psjf s l.op = some (s₁, .enter sw.why) ∧ leave .psjf s₁ l.entry = some s₂ ∧
      s'.runningTcb = some n ∧ sw.next = some (s'.tcb n).id ∧ Ready s₂ n ∧
      (∀ t, Ready s₂ t → t ≠ n → psjfKey s₂.tcb n < psjfKey s₂.tcb t) ∧
      ∀ t ∈ s₁.psjfHeap.contents, psjfKey s₂.tcb t = psjfKey s₁.tcb t
  quanta : ∀ t, s'.allocated t = true →
    (s'.tcb t).elapsedQuanta = preemptions (s'.tcb t).id (ls ++ [l])
  /-- The keys of the threads in the heap do not change. -/
  keys : ∀ t ∈ s.psjfHeap.contents, psjfKey s'.tcb t = psjfKey s.tcb t

section

variable {s s' s₁ s₂ : State} {r n t : TcbPtr} {entry disp now : ℤ} {ls : List Label} {l : Label}
  {tcb : TcbPtr → Tcb} {c : Multiset TcbPtr} {cur : Option TcbPtr} {q : Multiset TcbPtr}

/-! ### What the scheduler does to the heap -/

/-- `schedule` counts a preemption of the thread `r` that left the CPU. -/
theorem leave_quanta (hrun : s.runningTcb = some r) (h : leave .psjf s now = some s') (t : TcbPtr) :
    (s'.tcb t).elapsedQuanta =
      (s.tcb t).elapsedQuanta + (if t = r ∧ s.stateOf r = .running then 1 else 0) := by
  -- the queue keeps the counts
  have hkept : ∀ {b : Tcb}, addToScheduler .psjf (s.setTcb r b) r = some s' →
      s'.tcb = update s.tcb r b := by
    intro b hadd
    obtain ⟨heap, -, rfl⟩ := Option.map_eq_some_iff.mp hadd
    rfl
  rw [leave, hrun] at h
  dsimp only at h
  -- only a thread that was `RUNNING` was preempted
  cases hst : (s.tcb r).state with
  | running =>
    rw [hst] at h
    have hself : (s.setState r .ready).tcb r = { s.tcb r with state := .ready } :=
      update_self _ _ _
    dsimp only at h
    rw [preempt, hself] at h
    dsimp only at h
    rw [State.setState, State.setTcb_setTcb] at h
    rw [hkept h]
    simp only [State.stateOf, hst, update_apply]
    grind
  | ready =>
    rw [hst] at h
    rw [hkept h]
    simp only [State.stateOf, hst, update_apply]
    grind
  | blocked =>
    rw [hst] at h
    obtain rfl := Option.some.inj h
    simp [State.stateOf, hst]
  | terminated =>
    rw [hst] at h
    obtain rfl := Option.some.inj h
    simp [State.stateOf, hst]

/-- `sched_psjf` counts nothing. -/
theorem schedPsjf_keeps (h : schedPsjf s = some (s', some n)) : KeysKept s s' := by
  obtain ⟨⟨p, heap⟩, hpop, heq⟩ := Option.map_eq_some_iff.mp h
  obtain ⟨rfl, hn⟩ := Prod.mk.inj heq
  obtain rfl := Option.some.inj hn
  exact keysKept_setTcb (s := { s with psjfHeap := heap })
    (t := { s.tcb p with state := .running, hasStarted := true })
    ⟨rfl, rfl, rfl, rfl, rfl, rfl, rfl⟩

/-! ### Runs -/

/-- What holds of the heap and the counts after a run. -/
structure Counted (ls : List Label) (s : State) : Prop where
  ordered : s.psjfHeap.Ordered (psjfKey s.tcb)
  quanta : ∀ t, s.allocated t = true →
    (s.tcb t).elapsedQuanta = preemptions (s.tcb t).id ls
  nextThreadId : s.nextThreadId ≤ 2 ^ 31 - 1
  /-- Threads to come have not been preempted. -/
  fresh : ∀ i, s.nextThreadId ≤ i → preemptions i ls = 0

theorem preemptions_append (id : ℕ) (ls : List Label) (l : Label) :
    preemptions id (ls ++ [l]) = preemptions id ls + if isPreemption id l then 1 else 0 := by
  rw [preemptions, List.countP_append, List.countP_singleton]
  rfl

theorem counted_init (h : IsInit s Tcb.zero) : Counted [] s where
  ordered := by
    rw [h.psjfHeap]
    exact fun i _ hi => absurd hi (Nat.not_lt_zero i)
  quanta t ha := by
    rw [(h.allocated t).mp ha, h.tcb]
    rfl
  nextThreadId := by
    rw [h.nextThreadId]
    norm_num
  fresh _ _ := rfl

theorem counted_returned (h : Counted ls s) (hs : Sound s (some r) (queued .psjf s))
    (hret : Returned .psjf s r l s') (hclose : Close s') : Counted (ls ++ [l]) s' := by
  have hpol : HasHeap .psjf := .inl rfl
  have hcall := act_called hret.act
  have hs' := hret.acted.ret _ rfl
  have hnext := next_le hcall h.nextThreadId
  -- a call that returns records no switch, so no preemption
  have hsame : ∀ i, preemptions i (ls ++ [l]) = preemptions i ls := by
    intro i
    rw [preemptions_append, isPreemption, hret.switch]
    rfl
  refine ⟨?_, fun t ha => ?_, hnext, fun i hi => ?_⟩
  · refine ordered_called hpol hcall h.ordered (fun t ht => (hs.mem_heapOf hpol ht).1) ?_
    have hclose' : CloseKeys .psjf s' := hclose
    exact hclose'.follows hs' (by omega)
      (fun t ht => ⟨(hs'.mem_heapOf hpol ht).1, .inl (hs'.mem_heapOf hpol ht).2⟩) fun _ _ => rfl
  · rw [hsame]
    cases hsa : s.allocated t with
    | true =>
      have hk := hcall.keys t hsa
      rw [hk.elapsedQuanta, hk.id]
      exact h.quanta t hsa
    -- a thread created by the call starts with no quanta, under an id not used before
    | false =>
      obtain ⟨fresh, hk⟩ := hcall.created t hsa ha
      have hnew : (s'.tcb t).id = s.nextThreadId := hk.id
      rw [hnew, hk.elapsedQuanta, h.fresh _ le_rfl]
      rfl
  · rw [hsame]
    exact h.fresh i (hret.acted.next.trans hi)

theorem shortestJob_returned (h : Counted ls s) (hs : Sound s (some r) (queued .psjf s))
    (hret : Returned .psjf s r l s') (hclose : Close s') : ShortestJob ls s l s' where
  least sw hsw := by
    rw [hret.switch] at hsw
    exact absurd hsw (by simp)
  quanta := (counted_returned h hs hret hclose).quanta
  keys t ht := by
    have hk := (act_called hret.act).keys t (hs.mem_heapOf (.inl rfl) ht).1
    rw [psjfKey, psjfKey, hk.elapsedQuanta, hk.id]

/-- What a step that switches does to the counts. -/
theorem quanta_switched {s₃ : State} {why : Leave} (hs : Sound s (some r) (queued .psjf s))
    (hrun : s₁.runningTcb = some r) (hstate : s₁.stateOf r = why.state)
    (hcall : Called .psjf s s₁) (hleave : leave .psjf s₁ now = some s₂)
    (hkeys : KeysKept s₂ s₃) (ha : s.allocated t = true) :
    (s₃.tcb t).id = (s.tcb t).id ∧ (s₃.tcb t).elapsedQuanta =
      (s.tcb t).elapsedQuanta +
        if (s.tcb r).id = (s.tcb t).id ∧ why = .preempted then 1 else 0 := by
  have hid : (s₂.tcb t).id = (s₁.tcb t).id := ((leave_spec hrun hleave).1.same t).id
  have hiff : (t = r ∧ s₁.stateOf r = .running) ↔
      ((s.tcb r).id = (s.tcb t).id ∧ why = .preempted) := by
    rw [hstate]
    constructor
    · rintro ⟨rfl, hrunning⟩
      exact ⟨rfl, by cases why <;> simp [Leave.state] at hrunning ⊢⟩
    · rintro ⟨hidr, rfl⟩
      exact ⟨hs.ids t r ha (hs.cpu r rfl).2.2 hidr.symm, rfl⟩
  refine ⟨((hkeys t).id.trans hid).trans (hcall.keys t ha).id, ?_⟩
  rw [(hkeys t).elapsedQuanta, leave_quanta hrun hleave t, (hcall.keys t ha).elapsedQuanta]
  simp only [hiff]

/-- A call of `schedule`. -/
theorem switched_psjf {why : Leave} (h : Counted ls s) (hs : Sound s (some r) (queued .psjf s))
    (hsw : Switched .psjf s r l s' s₁ why n) (hclose : Close s') :
    Counted (ls ++ [l]) s' ∧ ShortestJob ls s l s' := by
  have hcall := act_called hsw.act
  have hs' := hsw.stepped.sound
  have hcpu := hs.cpu r rfl
  obtain ⟨hrun, hpark, halloc, hnext, hstate⟩ := hsw.acted.enter why rfl
  obtain ⟨s₃, hsched, hsch, rfl⟩ := hsw.schedule
  -- the choice is made in the state after `leave`, which has counted the preemption
  obtain ⟨s₂, hleave, hpick⟩ := Option.bind_eq_some_iff.mp hsched
  have hkeys := schedPsjf_keeps hpick
  have halloc₃ : s₃.allocated = s.allocated := hsch.keeps.allocated.trans halloc
  have hnext₃ : s₃.nextThreadId = s.nextThreadId := hsch.keeps.nextThreadId.trans hnext
  have hs₃ : Sound s₃ (some n) (queued .psjf s₃) := hs'.of_eq rfl rfl rfl rfl rfl rfl rfl rfl rfl
  have hbound : s₁.nextThreadId ≤ 2 ^ 31 := hnext.trans_le (h.nextThreadId.trans (by norm_num))
  have hpol : HasHeap .psjf := .inl rfl
  have hclose₂ : CloseKeys .psjf s₂ := CloseKeys.at_choice hpol hrun hpark hleave hpick hs₃ hclose
  obtain ⟨hordered, hn, hleast⟩ := least_at_choice hpol hrun hpark hleave hpick hs hcall h.ordered
    hbound hclose₂
  -- the trace records a preemption of the thread that left
  have hpre : ∀ i, isPreemption i l = decide ((s.tcb r).id = i ∧ why = .preempted) := by
    intro i
    rw [isPreemption, hsw.switch]
    rfl
  have hquanta : ∀ t, s₃.allocated t = true →
      (s₃.tcb t).elapsedQuanta = preemptions (s₃.tcb t).id (ls ++ [l]) := by
    intro t ha
    rw [halloc₃] at ha
    obtain ⟨hid, hq⟩ := quanta_switched hs hrun hstate hcall hleave hkeys ha
    rw [hq, hid, h.quanta t ha, preemptions_append, hpre]
    simp only [decide_eq_true_eq, Nat.cast_add, Nat.cast_ite, Nat.cast_one, Nat.cast_zero]
  refine ⟨⟨hordered, hquanta, ?_, fun i hi => ?_⟩, fun sw hsw' => ?_, hquanta, fun t ht => ?_⟩
  · exact hnext₃.trans_le h.nextThreadId
  · have hi' : s.nextThreadId ≤ i := hnext₃.ge.trans hi
    have hr := hs.fresh r hcpu.2.2
    rw [preemptions_append, hpre, h.fresh i hi', if_neg]
    rw [decide_eq_true_eq]
    -- the switch of the label names the thread that `sched_psjf` popped
    exact fun heq => (hr.trans_le hi').ne heq.1
  · obtain rfl : sw = ⟨(s.tcb r).id, why, some (s₃.tcb n).id⟩ :=
      Option.some.inj (hsw'.symm.trans hsw.switch)
    exact ⟨s₁, s₂, n, hsw.act, hleave, hsch.runningTcb, rfl, hn, hleast,
      fun t => keys_at_choice hpol hrun hpark hleave⟩
  -- the keys of the other threads are still those before the step
  · have hready := hs.mem_heapOf hpol ht
    obtain ⟨hid, hq⟩ := quanta_switched hs hrun hstate hcall hleave hkeys hready.1
    have hne : ¬ ((s.tcb r).id = (s.tcb t).id ∧ why = .preempted) := by
      rintro ⟨hidr, -⟩
      obtain rfl := hs.ids t r hready.1 hcpu.2.2 hidr.symm
      have hrunning := (hs.running t hready.1).mpr rfl
      rw [hready.2] at hrunning
      exact absurd hrunning (by decide)
    change psjfKey s₃.tcb t = psjfKey s.tcb t
    rw [psjfKey, psjfKey, hq, hid, if_neg hne, add_zero]

theorem psjfRuns_run (hr : Run psjfRuns ls s) : Run (library .psjf (· = Tcb.zero)) ls s := by
  induction hr with
  | start h => exact .start h
  | step _ hs ih => exact ih.step hs.1

/-- What a step does, after a run. -/
theorem psjf_step (hr : Run psjfRuns ls s) (h : Counted ls s) (hs : psjfRuns.step s l s') :
    Counted (ls ++ [l]) s' ∧ ShortestJob ls s l s' := by
  have hr' := orderly_of_heap (.inl rfl) (psjfRuns_run hr)
  obtain ⟨r, hsound⟩ := orderly_sound hr'
  have hs' : (orderly .psjf).step s l s' := ⟨hs.1, fun _ _ _ => ⟨.inl rfl, by simp⟩⟩
  rcases orderly_cases hsound hs' with hret | ⟨s₁, why, n, hsw⟩
  · exact ⟨counted_returned h hsound hret hs.2, shortestJob_returned h hsound hret hs.2⟩
  · exact switched_psjf h hsound hsw hs.2

theorem run_counted (hr : Run psjfRuns ls s) : Counted ls s := by
  refine hr.history (I := Counted) ?_ fun ls s l s' hr h hs => (psjf_step hr h hs).1
  rintro s ⟨fresh, rfl, hinit⟩
  exact counted_init hinit

/-- **PSJF picks the shortest job.** -/
theorem shortest_job (hr : Run psjfRuns ls s) (hs : psjfRuns.step s l s') :
    ShortestJob ls s l s' :=
  (psjf_step hr (run_counted hr) hs).2

theorem close_of_two (h : ∀ t, s.allocated t = true → t = 0 ∨ t = 1)
    (hclose : |(s.tcb 0).elapsedQuanta - (s.tcb 1).elapsedQuanta| < 2 ^ 31) : Close s := by
  intro t t' ha ha' _ _
  rcases h t ha with rfl | rfl <;> rcases h t' ha' with rfl | rfl
  · simp
  · exact hclose
  · rw [abs_sub_comm]
    exact hclose
  · simp

end

/-- The main thread creates thread `1`, and the timer preempts it. -/
theorem shortest_job_first_tick : ∃ ls s s', Run psjfRuns ls s ∧
    psjfRuns.step s ⟨.tick, 0, 0, .nothing, some ⟨0, .preempted, some 1⟩⟩ s' ∧
    ShortestJob ls s ⟨.tick, 0, 0, .nothing, some ⟨0, .preempted, some 1⟩⟩ s' := by
  -- both steps are evaluated, and what the conditions read is kept
  obtain ⟨s, s', hcreate, ha, he, htick, ha', he'⟩ : ∃ s s',
      step .psjf .first (.create 1 Tcb.zero) 0 0 = some (s, .created 1, none) ∧
      s.allocated = update (· == 0) 1 true ∧
      (s.tcb 0).elapsedQuanta - (s.tcb 1).elapsedQuanta = 0 ∧
      step .psjf s .tick 0 0 = some (s', .nothing, some ⟨0, .preempted, some 1⟩) ∧
      s'.allocated = update (· == 0) 1 true ∧
      (s'.tcb 0).elapsedQuanta - (s'.tcb 1).elapsedQuanta = 1 :=
    ⟨_, _, rfl, rfl, rfl, rfl, rfl, rfl⟩
  -- there are two threads, so the condition is about one difference
  have htwo : ∀ t, update (· == 0) 1 true t = true → t = 0 ∨ t = 1 := by
    intro t
    rw [update_apply]
    split
    · exact fun _ => .inr ‹_›
    · exact fun h => .inl (beq_iff_eq.mp h)
  have hr : Run psjfRuns [⟨.create 1 Tcb.zero, 0, 0, .created 1, none⟩] s := by
    have h0 : Run psjfRuns [] State.first := .start ⟨Tcb.zero, rfl, State.first_isInit⟩
    refine h0.step ⟨⟨hcreate, ?_⟩, ?_⟩
    · rintro u fresh h
      exact (Op.create.inj h).2.symm
    · exact close_of_two (fun t h => htwo t (ha ▸ h)) (by rw [he]; norm_num)
  have hs : psjfRuns.step s ⟨.tick, 0, 0, .nothing, some ⟨0, .preempted, some 1⟩⟩ s' :=
    ⟨⟨htick, by simp⟩, close_of_two (fun t h => htwo t (ha' ▸ h)) (by rw [he']; norm_num)⟩
  exact ⟨_, s, s', hr, hs, shortest_job hr hs⟩

end Library

end ThreadWorker
