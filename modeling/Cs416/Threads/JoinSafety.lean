import Cs416.Threads.SoundRuns

/-!
# Joins

A join returns whenever its saved context is put back on the CPU. `worker_exit` sees to that when
the thread that is waited for ends, and so do two other places in the scheduler: the fallback to
the main thread, when no thread is ready, and the second entry that a yield leaves in the run
queue under MLFQ. `JoinSafe` is what a join promises, and it holds in the runs that reach neither
(`join_safe`). Without the condition a join returns for a thread that has not ended
(`join_returns_early`).
-/

open Function Lts

namespace ThreadWorker

namespace Library

section

variable {pol : Policy} {s s₁ : State} {r : TcbPtr} {m : MutexPtr} {op : Op} {v : Value}
  {ls : List Label}

/-! ### The condition before the step -/

/-- Whether the thread on the CPU stops running in this call, and makes no other ready. -/
def stops (s : State) : Op → Bool
  | .lock m => (s.mutex m).locked
  | .resume =>
    match s.cpu.point with
    | .locking m => (s.mutex m).locked
    | _ => false
  | .join thread =>
    match findTcbById s.table s.idOf thread with
    | none => false
    | some x => s.runningTcb.map s.idOf ≠ some thread ∧ (s.tcb x).joined = false ∧
        (s.tcb x).state ≠ .terminated
  | .exit _ => s.runningTcb.any fun r => (s.tcb r).waitingThread.isNone
  | _ => false

/-- A thread that stops running leaves another one ready, and none yields under MLFQ. -/
def Relieved (pol : Policy) (s : State) (op : Op) : Prop :=
  (stops s op = true → ∃ t, s.allocated t = true ∧ (s.tcb t).state = .ready) ∧
    ¬ (pol = .mlfq ∧ op = .yield)

theorem lockLoop_ready (h : Sound s (some r) (queued pol s)) {why : Leave}
    (he : lockLoop s m = some (s₁, .enter why)) (hready : (s.mutex m).locked = true →
      ∃ t, s.allocated t = true ∧ (s.tcb t).state = .ready) : SomeReady s₁ := by
  have hc := h.cpu r rfl
  have hst := (h.running r hc.2.2).mpr rfl
  unfold lockLoop at he
  dsimp only at he
  split at he
  · next hl =>
    rw [hc.2.1] at he
    dsimp only at he
    rw [if_pos (by rw [hst]; decide)] at he
    obtain ⟨rfl, -⟩ := Prod.mk.inj (Option.some.inj he)
    obtain ⟨t, hta, htr⟩ := hready hl
    refine ⟨t, hta, .inl ?_⟩
    simp only [State.setState, State.setTcb, State.setMutex, State.save, update_apply]
    grind
  · exact absurd (congrArg Prod.snd (Option.some.inj he)) (by simp)

theorem exit_ready (h : Sound s (some r) (queued pol s)) {why : Leave}
    (he : exit pol s v = some (s₁, .enter why)) (hready : stops s (.exit v) = true →
      ∃ t, s.allocated t = true ∧ (s.tcb t).state = .ready) : SomeReady s₁ := by
  have hc := h.cpu r rfl
  have hst := (h.running r hc.2.2).mpr rfl
  unfold exit at he
  rw [hc.2.1] at he
  have hself : (s.setTcb r { s.tcb r with state := .terminated, retval := v }).tcb r
      = { s.tcb r with state := .terminated, retval := v } := update_self _ _ _
  dsimp only at he
  rw [hself] at he
  dsimp only at he
  split at he
  -- nobody waits for the thread that ends: some other thread has to be `READY`
  · next hw =>
    obtain ⟨rfl, -⟩ := Prod.mk.inj (Option.some.inj he)
    obtain ⟨t, hta, htr⟩ := hready (by simp [stops, hc.2.1, hw])
    refine ⟨t, hta, .inl ?_⟩
    simp only [State.setTcb, State.save, update_apply]
    grind
  -- the waiter becomes `READY`
  · next w hw =>
    obtain ⟨s₂, hadd, heq⟩ := Option.map_eq_some_iff.mp he
    obtain ⟨rfl, -⟩ := Prod.mk.inj heq
    obtain ⟨⟨rr, psjf, mlfq, cfs, rfl⟩, -⟩ := addToScheduler_spec hadd
    obtain ⟨hwa, hwb, -⟩ := h.waiter r w hc.2.2 hw
    refine ⟨w, hwa, .inl ?_⟩
    simp only [State.setState, State.setTcb, State.save, update_apply]
    grind

theorem join_ready (h : Sound s (some r) (queued pol s)) {why : Leave} {thread : ℕ}
    (he : join s thread = some (s₁, .enter why)) (hready : stops s (.join thread) = true →
      ∃ t, s.allocated t = true ∧ (s.tcb t).state = .ready) : SomeReady s₁ := by
  have hc := h.cpu r rfl
  have hst := (h.running r hc.2.2).mpr rfl
  unfold join at he
  -- of the five ways through `worker_join` only the last one leaves the CPU
  split at he
  · exact absurd (congrArg Prod.snd (Option.some.inj he)) (by simp)
  next x hfind =>
  rw [hc.2.1] at he
  dsimp only at he
  split at he
  · exact absurd (congrArg Prod.snd (Option.some.inj he)) (by simp)
  next hself =>
  split at he
  · exact absurd (congrArg Prod.snd (Option.some.inj he)) (by simp)
  next hj =>
  split at he
  · exact absurd (congrArg Prod.snd (Option.some.inj he)) (by simp)
  next hxst =>
  obtain ⟨rfl, -⟩ := Prod.mk.inj (Option.some.inj he)
  have hxst' : (s.tcb x).state ≠ .terminated := by
    simpa [State.setTcb] using hxst
  obtain ⟨t, hta, htr⟩ := hready (by
    simp [stops, hfind, hc.2.1, State.idOf, hself, hj, hxst'])
  refine ⟨t, hta, .inl ?_⟩
  simp only [State.setState, State.setTcb, State.save, update_apply]
  grind

/-- What the condition before the step says about the entry of the scheduler. -/
theorem Relieved.entryOk (h : Sound s (some r) (queued pol s)) (hrel : Relieved pol s op) :
    EntryOk pol s op := by
  intro s₁ why hact
  have hc := h.cpu r rfl
  have hst := (h.running r hc.2.2).mpr rfl
  have huser : Sound { s with cpu := ⟨s.cpu.who, .user⟩ } (some r)
      (queued pol { s with cpu := ⟨s.cpu.who, .user⟩ }) := h.user
  have hwhy := act_leaves hact
  -- only `worker_yield` leaves with the reason `yielded`
  have hyield : op ≠ .yield → ¬ (pol = .mlfq ∧ why = .yielded) := by
    rintro hne ⟨-, rfl⟩
    cases op <;> simp [Op.Leaves] at hwhy hne
  cases op with
  | tick =>
    have he := (act_call (by simp) hact).2
    unfold call at he
    rw [hc.2.1] at he
    obtain ⟨rfl, -⟩ := Prod.mk.inj (Option.some.inj he)
    -- the thread that the timer stops is itself still `RUNNING`
    exact ⟨.inr (.inr ⟨r, hc.2.2, .inr ⟨hc.2.1, hst⟩⟩), hyield (by simp)⟩
  | yield =>
    have he := (act_call (by simp) hact).2
    unfold call at he
    rw [hc.2.1] at he
    obtain ⟨rfl, -⟩ := Prod.mk.inj (Option.some.inj he)
    exact ⟨.inr (.inr ⟨r, hc.2.2, .inl (congrArg Tcb.state (update_self r _ s.tcb))⟩),
      fun hm => hrel.2 ⟨hm.1, rfl⟩⟩
  | exit v => exact ⟨.inr (.inr (exit_ready h (act_call (by simp) hact).2 hrel.1)), hyield (by simp)⟩
  | join thread => exact ⟨.inr (.inr (join_ready h (act_call (by simp) hact).2 hrel.1)), hyield (by simp)⟩
  | lock m => exact ⟨.inr (.inr (lockLoop_ready h (act_call (by simp) hact).2 hrel.1)), hyield (by simp)⟩
  | resume =>
    -- of the interrupted calls only `worker_mutex_lock` can leave the CPU again
    refine ⟨.inr (.inr ?_), hyield (by simp)⟩
    change resume s = _ at hact
    unfold resume at hact
    split at hact
    · exact absurd hact (by simp)
    · next m hp =>
      refine lockLoop_ready huser hact fun hl => hrel.1 ?_
      rw [stops, hp]
      exact hl
    · exact absurd (congrArg Prod.snd (Option.some.inj hact)) (by simp)
    · exact absurd (congrArg Prod.snd (Option.some.inj hact)) (by simp)
  | unlock m => exact hwhy.elim
  | mutexInit m => exact hwhy.elim
  | mutexDestroy m => exact hwhy.elim
  | create u fresh => exact hwhy.elim
  | createFails stack => exact hwhy.elim

/-- The runs whose steps meet the condition. -/
abbrev relieved (pol : Policy) : System State Label :=
  (library pol (· = Tcb.zero)).restrict fun s l => Relieved pol s l.op

theorem relieved_orderly (hr : Run (relieved pol) ls s) : Run (orderly pol) ls s := by
  induction hr with
  | start h => exact .start h
  | step _ hs ih =>
    obtain ⟨r, h⟩ := orderly_sound ih
    exact ih.step ⟨hs.1, Relieved.entryOk h hs.2⟩

/-- What a step does in such a run. -/
theorem relieved_step {s' : State} {l : Label} (hr : Run (relieved pol) ls s)
    (hs : (relieved pol).step s l s') :
    ∃ r n, Sound s (some r) (queued pol s) ∧ Stepped pol s r l s' n := by
  obtain ⟨r, h⟩ := orderly_sound (relieved_orderly hr)
  obtain ⟨n, hn⟩ := sound_step h ⟨hs.1, Relieved.entryOk h hs.2⟩
  exact ⟨r, n, h, hn⟩

/-! ### Join safety -/

/-- Every thread that has ended called `worker_exit`, with the value it left. -/
def Ended (ls : List Label) (s : State) : Prop :=
  ∀ t, s.allocated t = true → (s.tcb t).state = .terminated →
    ∃ l ∈ ls, l.op = .exit (s.tcb t).retval ∧
      ∃ next, l.switch = some ⟨(s.tcb t).id, .exited (s.tcb t).retval, next⟩

/-- **Join safety** of the step `l` from `s` to `s'`, after the steps `ls`. -/
structure JoinSafe (ls : List Label) (s : State) (l : Label) (s' : State) : Prop where
  /-- When a join returns `0`, the thread has ended, and this is the value it ended with. -/
  joined : ∀ thread v, l.reply = .joined thread v →
    (∃ t, s.allocated t = true ∧ (s.tcb t).id = thread ∧ (s.tcb t).state = .terminated ∧
      (s.tcb t).retval = v) ∧
    ∃ l₀ ∈ ls, l₀.op = .exit v ∧ ∃ next, l₀.switch = some ⟨thread, .exited v, next⟩
  freed : ∀ t, s.allocated t = true → s'.allocated t = false → (s.tcb t).state = .terminated

theorem ended_step {s' : State} {l : Label} {n : TcbPtr} (h : Ended ls s)
    (hstep : Stepped pol s r l s' n) : Ended (ls ++ [l]) s' := by
  intro t ha ht
  rcases hstep.ended t ha ht with ⟨hsa, hst, hid, hret⟩ | ⟨next, hsw⟩
  · obtain ⟨l₀, hl₀, hop, next, hsw⟩ := h t hsa hst
    rw [hid, hret]
    exact ⟨l₀, List.mem_append_left _ hl₀, hop, next, hsw⟩
  · exact ⟨l, List.mem_append_right _ (List.mem_singleton_self l), (hstep.exits _ _ _ hsw).1,
      next, hsw⟩

theorem relieved_ended (hr : Run (relieved pol) ls s) : Ended ls s := by
  refine hr.history (I := Ended) ?_ ?_
  · rintro s ⟨fresh, rfl, hinit⟩ t ha ht
    rw [(hinit.allocated t).mp ha, hinit.tcb] at ht
    exact absurd ht (by simp [Tcb.main])
  · intro ls s l s' hr h hs
    obtain ⟨r, n, -, hstep⟩ := relieved_step hr hs
    exact ended_step h hstep

/-- **Joins are safe** in every run in which a thread that stops running leaves another one ready
and, under MLFQ, none yields. -/
theorem join_safe {s' : State} {l : Label} (hr : Run (relieved pol) ls s)
    (hs : (relieved pol).step s l s') : JoinSafe ls s l s' := by
  obtain ⟨r, n, -, hstep⟩ := relieved_step hr hs
  refine ⟨fun thread v hreply => ?_, hstep.freed⟩
  obtain ⟨t, ha, hst, hid, hret⟩ := hstep.joined thread v hreply
  obtain ⟨l₀, hl₀, hop, next, hsw⟩ := relieved_ended hr t ha hst
  rw [hret] at hop
  rw [hid, hret] at hsw
  exact ⟨⟨t, ha, hid, hst, hret⟩, l₀, hl₀, hop, next, hsw⟩

end

/-- The condition of `Relieved` with the main thread in block `0` for the thread that is ready. -/
def MainReady (s : State) (op : Op) : Prop :=
  (stops s op = true → s.allocated 0 = true ∧ (s.tcb 0).state = .ready) ∧ op ≠ .yield

instance (s : State) (op : Op) : Decidable (MainReady s op) := inferInstanceAs (Decidable (_ ∧ _))

theorem MainReady.relieved {pol : Policy} {s : State} {op : Op} (h : MainReady s op) :
    Relieved pol s op :=
  ⟨fun hstop => ⟨0, h.1 hstop⟩, fun hyield => h.2 hyield.2⟩

/-- Thread `1` ends, and the main thread is put back on the CPU. -/
def childEnds : List (Op × ℤ × ℤ) := [(.create 1 Tcb.zero, 0, 0), (.tick, 0, 0), (.exit 7, 0, 0)]

theorem join_safe_childEnds : ∃ ls s s', Run (relieved .rr) ls s ∧
    (relieved .rr).step s ⟨.join 1, 0, 0, .joined 1 7, none⟩ s' ∧
    JoinSafe ls s ⟨.join 1, 0, 0, .joined 1 7, none⟩ s' := by
  obtain ⟨ls, s, hperf, hok, s', hstep⟩ : ∃ ls s,
      performIf MainReady .rr .first childEnds = some (ls, s) ∧ stops s (.join 1) = false ∧
      ∃ s', step .rr s (.join 1) 0 0 = some (s', .joined 1 7, none) :=
    ⟨_, _, rfl, rfl, _, rfl⟩
  have hr : Run (relieved .rr) ls s :=
    (run_first (by simp [childEnds, Op.Uses]) hperf).restrict_mono fun _ _ h => h.relieved
  have hs : (relieved .rr).step s ⟨.join 1, 0, 0, .joined 1 7, none⟩ s' := by
    refine ⟨⟨hstep, by simp⟩, fun hstop => ?_, by simp⟩
    rw [hok] at hstop
    exact absurd hstop (by decide)
  exact ⟨ls, s, s', hr, hs, join_safe hr hs⟩

/-- Thread `1` waits for the mutex of the main thread, and the main thread for thread `1`. -/
def mutualWait : List (Op × ℤ × ℤ) :=
  [(.lock 0, 0, 0), (.create 1 Tcb.zero, 0, 0), (.tick, 0, 0), (.lock 0, 0, 0), (.join 1, 0, 0)]

/-- **A join returns early.** Under round robin no thread is ready after `mutualWait`, and the
fallback puts the main thread back behind the `swapcontext` of its join, which returns `0` and
frees thread `1` while it is blocked. -/
theorem join_returns_early : ¬ ∀ (pol : Policy) (ls : List Label) (s : State) (l : Label) (s' : State),
    Run (library pol (· = Tcb.zero)) ls s → (library pol (· = Tcb.zero)).step s l s' →
    JoinSafe ls s l s' := by
  intro h
  obtain ⟨ls, s, hperf, ha, hst, s', hstep, hfree⟩ : ∃ ls s,
      performIf (fun _ _ => True) .rr .first mutualWait = some (ls, s) ∧
      s.allocated 1 = true ∧ (s.tcb 1).state = .blocked ∧
      ∃ s', step .rr s .resume 0 0 = some (s', .joined 1 0, none) ∧ s'.allocated 1 = false :=
    ⟨_, _, rfl, rfl, rfl, _, rfl, rfl⟩
  have hr : Run (library .rr (· = Tcb.zero)) ls s :=
    (run_first (by simp [mutualWait, Op.Uses]) hperf).of_restrict
  have hsafe := h .rr ls s ⟨.resume, 0, 0, .joined 1 0, none⟩ s' hr ⟨hstep, by simp⟩
  have hterm := hsafe.freed 1 ha hfree
  rw [hst] at hterm
  exact absurd hterm (by decide)

end Library

end ThreadWorker
