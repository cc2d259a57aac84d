import Cs416.Threads.Charges

/-!
# Demotion under MLFQ

The branch of `sched_mlfq` that demotes a thread is taken when it finds the thread `RUNNING`, and
`schedule` has already made it `READY`. So every thread stays at the topmost level, where one tick
uses up the allotment, and Rule 4 is broken by every preemption and by nothing else
(`rule_four_iff`). This is a result about every run, also about those in which a thread yields or
the scheduler falls back to the main thread.
-/

open Function Lts

namespace ThreadWorker

namespace Library

/-- The timer preempts `r`. -/
structure Preempts (s : State) (op : Op) (r : TcbPtr) : Prop where
  tick : op = .tick
  user : s.cpu.point = .user
  runningTcb : s.runningTcb = some r
  allocated : s.allocated r = true
  state : (s.tcb r).state = .running

/-- `r` is at a level, and has used so much of its allotment there. -/
structure Placed (s : State) (r : TcbPtr) (level : ℕ) (used : ℤ) : Prop where
  priority : (s.tcb r).priority = level
  timeUsed : (s.tcb r).timeUsed = used
  queue : r ∈ s.mlfqLevels level ∨ s.runningTcb = some r

/-- A period `S` passes. -/
def Promotes (s s' : State) : Prop :=
  s'.globalTicks = s.globalTicks + 1 ∧ s'.globalTicks % sPeriod = 0

/-- **Rule 4**, of the step `l` from `s` to `s'`. -/
structure RuleFour (s : State) (l : Label) (s' : State) : Prop where
  /-- A thread that has used up its allotment is demoted. -/
  demoted : ∀ r, Preempts s l.op r → (s.tcb r).timeSlice ≤ (s.tcb r).timeUsed + 1 →
    Placed s' r (min ((s.tcb r).priority + 1) (maxMlfqLevels - 1)) 0 ∧
      (s'.tcb r).timeSlice = 2 ^ min ((s.tcb r).priority + 1) (maxMlfqLevels - 1)
  /-- One that has not stays where it is. -/
  kept : ∀ r, Preempts s l.op r → (s.tcb r).timeUsed + 1 < (s.tcb r).timeSlice →
    Placed s' r (s.tcb r).priority ((s.tcb r).timeUsed + 1)
  priority : ∀ t, s.allocated t = true → s'.allocated t = true →
    (¬ Promotes s s' → (s.tcb t).priority ≤ (s'.tcb t).priority) ∧
      (s'.tcb t).priority < maxMlfqLevels

/-- Every thread is at the topmost level, with an allotment of one tick. -/
def Flat (s : State) : Prop :=
  ∀ t, s.allocated t = true →
    (s.tcb t).priority = 0 ∧ (s.tcb t).timeSlice ≤ 1 ∧ 0 ≤ (s.tcb t).timeUsed

section

variable {s s' s₁ : State} {r t : TcbPtr} {entry disp now : ℤ} {result : Option TcbPtr}
  {ls : List Label} {l : Label}

/-- What the scheduler does to the level of a thread: it may count a tick, or reset the count. -/
structure LevelKept (t t' : Tcb) : Prop where
  priority : t'.priority = t.priority
  timeSlice : t'.timeSlice = t.timeSlice
  timeUsed : 0 ≤ t.timeUsed → 0 ≤ t'.timeUsed

theorem SameKeys.levelKept {t t' : Tcb} (h : SameKeys t t') : LevelKept t t' :=
  ⟨h.priority, h.timeSlice, fun hpos => h.timeUsed ▸ hpos⟩

theorem LevelKept.trans {t₁ t₂ t₃ : Tcb} (h₁ : LevelKept t₁ t₂) (h₂ : LevelKept t₂ t₃) :
    LevelKept t₁ t₃ :=
  ⟨h₂.priority.trans h₁.priority, h₂.timeSlice.trans h₁.timeSlice,
    fun h => h₂.timeUsed (h₁.timeUsed h)⟩

theorem levelKept_setTcb {t' : Tcb} (h : LevelKept (s.tcb r) t') (t : TcbPtr) :
    LevelKept (s.tcb t) ((s.setTcb r t').tcb t) := by
  simp only [State.setTcb, update_apply]
  split
  · next htr =>
    rw [htr]
    exact h
  · exact ⟨rfl, rfl, id⟩

/-- `schedule` counts a tick for a preempted thread, and never leaves it `RUNNING`. -/
theorem leave_levels (h : leave .mlfq s now = some s') :
    s'.allocated = s.allocated ∧ (∀ t, LevelKept (s.tcb t) (s'.tcb t)) ∧
      ∀ r, s'.runningTcb = some r → (s'.tcb r).state ≠ .running := by
  unfold leave at h
  split at h
  · next hrun =>
    obtain rfl := Option.some.inj h
    refine ⟨rfl, fun t => ⟨rfl, rfl, id⟩, fun r hr => ?_⟩
    rw [hrun] at hr
    exact absurd hr (by simp)
  · next r hrun =>
    -- by the state that `running_tcb` is in when it enters
    split at h
    · next hst =>
      have hself : (s.setState r .ready).tcb r = { s.tcb r with state := .ready } :=
        update_self _ _ _
      have hs' : s' = { s.setTcb r { s.tcb r with
          state := .ready, timeUsed := (s.tcb r).timeUsed + 1 } with
            globalTicks := s.globalTicks + 1 } := by
        -- a tick is charged to the preempted thread; a promotion would have to end
        unfold preempt at h
        rw [hself] at h
        dsimp only at h
        rw [State.setState, State.setTcb_setTcb] at h
        split at h
        · unfold promoteAllThreads at h
          split at h
          · exact (Option.some.inj h).symm
          · exact absurd h (by simp)
        · exact (Option.some.inj h).symm
      subst hs'
      refine ⟨rfl, levelKept_setTcb ⟨rfl, rfl, fun hpos => by dsimp only; omega⟩, fun q hq => ?_⟩
      have hqr : r = q := Option.some.inj (hrun.symm.trans hq)
      subst hqr
      simp [State.setTcb]
    · next hst =>
      obtain ⟨⟨rr, psjf, mlfq, cfs, rfl⟩, -⟩ := addToScheduler_spec h
      refine ⟨rfl, levelKept_setTcb ⟨rfl, rfl, fun _ => le_rfl⟩, fun q hq => ?_⟩
      have hqr : r = q := Option.some.inj (hrun.symm.trans hq)
      subst hqr
      simp [State.setTcb, hst]
    · next hst =>
      obtain rfl := Option.some.inj h
      refine ⟨rfl, fun t => ⟨rfl, rfl, id⟩, fun q hq => ?_⟩
      obtain rfl : r = q := Option.some.inj (hrun.symm.trans hq)
      rw [hst]
      decide
    · obtain rfl := Option.some.inj h
      exact ⟨rfl, fun t => ⟨rfl, rfl, id⟩, fun q hq => absurd hq (by simp)⟩

theorem dispatch_keys (s : State) (p : TcbPtr) :
    (dispatch s p).1.allocated = s.allocated ∧ KeysKept s (dispatch s p).1 :=
  ⟨rfl, keysKept_setTcb (t := { s.tcb p with state := .running, hasStarted := true })
    ⟨rfl, rfl, rfl, rfl, rfl, rfl, rfl⟩⟩

theorem mlfqLoop_keys (h : mlfqLoop s = some (s', result)) :
    s'.allocated = s.allocated ∧ KeysKept s s' := by
  unfold mlfqLoop at h
  split at h
  · next next levels _ =>
    obtain ⟨rfl, -⟩ := Prod.mk.inj (Option.some.inj h)
    exact dispatch_keys { s with mlfqLevels := levels } next
  · split at h
    · obtain ⟨rfl, -⟩ := Prod.mk.inj (Option.some.inj h)
      exact ⟨rfl, .of_eq rfl⟩
    split at h
    · exact absurd h (by simp)
    · obtain ⟨rfl, -⟩ := Prod.mk.inj (Option.some.inj h)
      exact ⟨rfl, .of_eq rfl⟩

/-- The branch that demotes is not reached. -/
theorem schedMlfq_keys (hrun : ∀ r, s.runningTcb = some r → (s.tcb r).state ≠ .running)
    (h : schedMlfq s = some (s', result)) : s'.allocated = s.allocated ∧ KeysKept s s' := by
  unfold schedMlfq at h
  split at h
  · exact mlfqLoop_keys h
  · next r hr =>
    dsimp only at h
    split at h
    · next hst => exact absurd hst (hrun r hr)
    · obtain ⟨s₁, hadd, hloop⟩ := Option.bind_eq_some_iff.mp h
      obtain ⟨halloc, hkeys⟩ := mlfqLoop_keys hloop
      refine ⟨halloc.trans ?_, (keysKept_addToScheduler hadd).trans hkeys⟩
      obtain ⟨⟨rr, psjf, mlfq, cfs, rfl⟩, -⟩ := addToScheduler_spec hadd
      rfl
    · obtain ⟨halloc, hkeys⟩ := mlfqLoop_keys h
      exact ⟨halloc, hkeys⟩
    · exact mlfqLoop_keys h

/-- **No step changes a level.** -/
theorem step_levels (hs : (library .mlfq (· = Tcb.zero)).step s l s') :
    (∀ t, s.allocated t = true → LevelKept (s.tcb t) (s'.tcb t)) ∧
    ∀ t, s.allocated t = false → s'.allocated t = true → ∃ fresh : Tcb,
      LevelKept (fresh.create s.nextThreadId) (s'.tcb t) := by
  obtain ⟨hstep, -⟩ := hs
  unfold step at hstep
  split at hstep
  · exact absurd hstep (by simp)
  · next s₁ reply hact =>
    -- a call that does not enter the scheduler
    have hcall := act_called hact
    obtain ⟨rfl, -⟩ := Prod.mk.inj (Option.some.inj hstep)
    refine ⟨fun t ha => (hcall.keys t ha).levelKept, fun t hf ha => ?_⟩
    obtain ⟨fresh, hnew⟩ := hcall.created t hf ha
    exact ⟨fresh, hnew.levelKept⟩
  · next s₁ why hact =>
    -- a call that does: what `schedule` does to the levels comes on top
    have hcall := act_called hact
    split at hstep
    · obtain ⟨⟨s₃, result⟩, hsched, heq⟩ := Option.map_eq_some_iff.mp hstep
      obtain ⟨s₂, hleave, hpick⟩ := Option.bind_eq_some_iff.mp hsched
      obtain ⟨halloc₂, hlev, hnot⟩ := leave_levels hleave
      obtain ⟨halloc₃, hkeys⟩ := schedMlfq_keys hnot hpick
      obtain ⟨rfl, -⟩ := Prod.mk.inj heq
      have hlevels : ∀ t, LevelKept (s₁.tcb t) (s₃.tcb t) := fun t =>
        (hlev t).trans (hkeys t).levelKept
      have halloc : s₃.allocated = s₁.allocated := halloc₃.trans halloc₂
      refine ⟨fun t ha => (hcall.keys t ha).levelKept.trans (hlevels t), fun t hf ha => ?_⟩
      obtain ⟨fresh, hnew⟩ := hcall.created t hf (halloc ▸ ha)
      exact ⟨fresh, hnew.levelKept.trans (hlevels t)⟩
    · exact absurd hstep (by simp)

theorem flat_step (h : Flat s) (hs : (library .mlfq (· = Tcb.zero)).step s l s') : Flat s' := by
  obtain ⟨hold, hnew⟩ := step_levels hs
  intro t ha
  cases hsa : s.allocated t with
  | true =>
    obtain ⟨hprio, hslice, hused⟩ := h t hsa
    have hk := hold t hsa
    exact ⟨hk.priority.trans hprio, hk.timeSlice ▸ hslice, hk.timeUsed hused⟩
  | false =>
    obtain ⟨fresh, hk⟩ := hnew t hsa ha
    exact ⟨hk.priority, hk.timeSlice.le, hk.timeUsed le_rfl⟩

theorem run_flat (hr : Run (library .mlfq (· = Tcb.zero)) ls s) : Flat s := by
  refine hr.invariant (I := Flat) ?_ fun s l s' => flat_step
  rintro s ⟨fresh, rfl, hinit⟩ t ha
  rw [(hinit.allocated t).mp ha, hinit.tcb]
  exact ⟨rfl, by decide, le_rfl⟩

/-- **A step obeys Rule 4 if and only if the timer preempts no thread in it.** -/
theorem rule_four_iff (hr : Run (library .mlfq (· = Tcb.zero)) ls s)
    (hs : (library .mlfq (· = Tcb.zero)).step s l s') :
    RuleFour s l s' ↔ ∀ r, ¬ Preempts s l.op r := by
  have hflat := run_flat hr
  have hflat' := flat_step hflat hs
  have hold := (step_levels hs).1
  constructor
  · intro h r hpre
    obtain ⟨hprio, hslice, hused⟩ := hflat r hpre.allocated
    have hplaced := (h.demoted r hpre (by omega)).1.priority
    have hsame : (s'.tcb r).priority = 0 := (hold r hpre.allocated).priority.trans hprio
    rw [hsame, hprio] at hplaced
    exact absurd hplaced (by decide)
  · intro hnone
    refine ⟨fun r hpre => absurd hpre (hnone r), fun r hpre => absurd hpre (hnone r),
      fun t ha ha' => ⟨fun _ => (hold t ha).priority.ge, ?_⟩⟩
    rw [(hflat' t ha').1]
    decide

end

/-- Thread `1` is on the CPU. -/
def childRuns : List (Op × ℤ × ℤ) := [(.create 1 Tcb.zero, 0, 0), (.tick, 0, 0)]

theorem rule_four_iff_childRuns : ∃ ls s s' l, Run (library .mlfq (· = Tcb.zero)) ls s ∧
    (library .mlfq (· = Tcb.zero)).step s l s' ∧
    (RuleFour s l s' ↔ ∀ r, ¬ Preempts s l.op r) := by
  obtain ⟨ls, s, hperf, s', reply, sw, hstep⟩ : ∃ ls s,
      performIf (fun _ _ => True) .mlfq .first childRuns = some (ls, s) ∧
      ∃ s' reply sw, step .mlfq s (.exit 7) 0 0 = some (s', reply, sw) :=
    ⟨_, _, rfl, _, _, _, rfl⟩
  have hr : Run (library .mlfq (· = Tcb.zero)) ls s :=
    (run_first (by simp [childRuns, Op.Uses]) hperf).of_restrict
  have hs : (library .mlfq (· = Tcb.zero)).step s ⟨.exit 7, 0, 0, reply, sw⟩ s' :=
    ⟨hstep, by simp⟩
  exact ⟨ls, s, s', _, hr, hs, rule_four_iff hr hs⟩

/-- **A thread is not demoted.** Thread `1` uses up its allotment of one tick and stays at the
topmost level. -/
theorem not_demoted : ¬ ∀ (ls : List Label) (s : State) (l : Label) (s' : State),
    Run (library .mlfq (· = Tcb.zero)) ls s → (library .mlfq (· = Tcb.zero)).step s l s' →
    RuleFour s l s' := by
  intro h
  obtain ⟨ls, s, hperf, hpre, hslice, s', reply, sw, hstep, hprio⟩ : ∃ ls s,
      performIf (fun _ _ => True) .mlfq .first childRuns = some (ls, s) ∧
      Preempts s .tick 1 ∧ (s.tcb 1).timeSlice ≤ (s.tcb 1).timeUsed + 1 ∧
      ∃ s' reply sw, step .mlfq s .tick 0 0 = some (s', reply, sw) ∧
        (s'.tcb 1).priority ≠ min ((s.tcb 1).priority + 1) (maxMlfqLevels - 1) :=
    ⟨_, _, rfl, ⟨rfl, rfl, rfl, rfl, rfl⟩, by decide, _, _, _, rfl, by decide⟩
  have hr : Run (library .mlfq (· = Tcb.zero)) ls s :=
    (run_first (by simp [childRuns, Op.Uses]) hperf).of_restrict
  have hfour := h ls s ⟨.tick, 0, 0, reply, sw⟩ s' hr ⟨hstep, by simp⟩
  exact hprio (hfour.demoted 1 hpre hslice).1.priority

end Library

end ThreadWorker
