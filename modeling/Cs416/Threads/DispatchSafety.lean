import Cs416.Threads.JoinSafety

/-!
# The run queue

`DispatchSafe` is what holds when the scheduler dispatches a thread: every other ready thread is
in the run queue once, and no thread that runs, is blocked or has ended is in it. It holds in the
runs of `Relieved` (`dispatch_safe`). A yield under MLFQ breaks it, because `schedule` and
`sched_mlfq` both put back the thread that yields (`yield_queued_twice`).
-/

open Function Lts

namespace ThreadWorker

namespace Library

/-- **The run queue when `n` has been dispatched.** -/
structure QueueSafe (pol : Policy) (s : State) (n : TcbPtr) : Prop where
  allocated : s.allocated n = true
  ready : ∀ t, t ≠ n → s.allocated t = true → (s.tcb t).state = .ready →
    (queued pol s).count t = 1
  dispatched : n ∉ queued pol s
  stopped : ∀ t, s.allocated t = true →
    (s.tcb t).state = .blocked ∨ (s.tcb t).state = .terminated → t ∉ queued pol s
  freed : ∀ t, s.allocated t = false → t ∉ queued pol s

/-- **Dispatch safety** of the step `l` to `s'`, after the steps `ls`: a thread is dispatched that
has not ended, and the run queue is as it should be. -/
def DispatchSafe (pol : Policy) (ls : List Label) (l : Label) (s' : State) : Prop :=
  ∀ left why i, l.switch = some ⟨left, why, some i⟩ →
    ∃ n, s'.runningTcb = some n ∧ (s'.tcb n).id = i ∧ QueueSafe pol s' n ∧
      ∀ l₀ ∈ ls ++ [l], ∀ v next, l₀.switch ≠ some ⟨i, .exited v, next⟩

section

variable {pol : Policy} {s s' : State} {r n : TcbPtr} {ls : List Label} {l : Label}

theorem Sound.queueSafe (h : Sound s (some n) (queued pol s)) : QueueSafe pol s n := by
  have hn := h.cpu n rfl
  have hrunning := (h.running n hn.2.2).mpr rfl
  have hnot : ∀ t, ¬ (s.allocated t = true ∧ (s.tcb t).state = .ready) → t ∉ queued pol s := by
    intro t hne
    rw [← Multiset.count_eq_zero, h.queue t, if_neg hne]
  refine ⟨hn.2.2, fun t _ ha hst => ?_, hnot n ?_, fun t _ hst => hnot t ?_, fun t ha => hnot t ?_⟩
  · rw [h.queue t, if_pos ⟨ha, hst⟩]
  · rw [hrunning]
    rintro ⟨-, hr⟩
    exact absurd hr (by decide)
  · rintro ⟨-, hr⟩
    rw [hr] at hst
    exact absurd hst (by decide)
  · rintro ⟨hr, -⟩
    rw [ha] at hr
    exact absurd hr (by decide)

/-- No `id` of a thread that has ended is that of a thread that has not. -/
def Gone (ls : List Label) (s : State) : Prop :=
  ∀ l ∈ ls, ∀ i v next, l.switch = some ⟨i, .exited v, next⟩ →
    i < s.nextThreadId ∧ ∀ t, s.allocated t = true → (s.tcb t).id = i → (s.tcb t).state = .terminated

theorem gone_step (h : Gone ls s) (hstep : Stepped pol s r l s' n) : Gone (ls ++ [l]) s' := by
  intro l₀ hl₀ i v next hsw
  rcases List.mem_append.mp hl₀ with hl₀ | hl₀
  · obtain ⟨hlt, hgone⟩ := h l₀ hl₀ i v next hsw
    refine ⟨hlt.trans_le hstep.next, fun t ha hid => ?_⟩
    by_contra hne
    rcases hstep.alive t ha hne with ⟨hsa, hst, hsid⟩ | hnew
    · exact hst (hgone t hsa (hsid.symm.trans hid))
    · rw [hid] at hnew
      exact absurd hnew hlt.ne
  · obtain rfl := List.mem_singleton.mp hl₀
    obtain ⟨-, t, ha, hst, rfl⟩ := hstep.exits i v next hsw
    refine ⟨hstep.sound.fresh t ha, fun t' ha' hid => ?_⟩
    rw [hstep.sound.ids t' t ha' ha hid]
    exact hst

theorem relieved_gone (hr : Run (relieved pol) ls s) : Gone ls s := by
  refine hr.history (I := Gone) ?_ ?_
  · intro s _ l hl
    exact absurd hl List.not_mem_nil
  · intro ls s l s' hr h hs
    obtain ⟨r, n, -, hstep⟩ := relieved_step hr hs
    exact gone_step h hstep

/-- **The run queue is as it should be** at every dispatch, in every run in which a thread that
stops running leaves another one ready and, under MLFQ, none yields. -/
theorem dispatch_safe (hr : Run (relieved pol) ls s) (hs : (relieved pol).step s l s') :
    DispatchSafe pol ls l s' := by
  obtain ⟨r, n, -, hstep⟩ := relieved_step hr hs
  intro left why i hsw
  obtain ⟨-, hnext, -⟩ := hstep.switched _ hsw
  obtain rfl := Option.some.inj hnext
  have hn := hstep.sound.cpu n rfl
  refine ⟨n, hn.2.1, rfl, hstep.sound.queueSafe, fun l₀ hl₀ v next hex => ?_⟩
  have hterm := (gone_step (relieved_gone hr) hstep l₀ hl₀ _ v next hex).2 n hn.2.2 rfl
  rw [(hstep.sound.running n hn.2.2).mpr rfl] at hterm
  exact absurd hterm (by decide)

end

theorem dispatch_safe_childEnds : ∃ ls s s', Run (relieved .mlfq) ls s ∧
    (relieved .mlfq).step s ⟨.exit 7, 0, 0, .nothing, some ⟨1, .exited 7, some 0⟩⟩ s' ∧
    DispatchSafe .mlfq ls ⟨.exit 7, 0, 0, .nothing, some ⟨1, .exited 7, some 0⟩⟩ s' := by
  obtain ⟨ls, s, hperf, hok, s', hstep⟩ : ∃ ls s,
      performIf MainReady .mlfq .first (childEnds.take 2) = some (ls, s) ∧ MainReady s (.exit 7) ∧
      ∃ s', step .mlfq s (.exit 7) 0 0 = some (s', .nothing, some ⟨1, .exited 7, some 0⟩) :=
    ⟨_, _, rfl, ⟨fun _ => ⟨rfl, rfl⟩, by decide⟩, _, rfl⟩
  have hr : Run (relieved .mlfq) ls s :=
    (run_first (by simp [childEnds, Op.Uses]) hperf).restrict_mono fun _ _ h => h.relieved
  have hs : (relieved .mlfq).step s
      ⟨.exit 7, 0, 0, .nothing, some ⟨1, .exited 7, some 0⟩⟩ s' :=
    ⟨⟨hstep, by simp⟩, hok.relieved⟩
  exact ⟨ls, s, s', hr, hs, dispatch_safe hr hs⟩

/-- **A yield under MLFQ** puts the main thread into the run queue twice. -/
theorem yield_queued_twice : ¬ ∀ (pol : Policy) (ls : List Label) (s : State) (l : Label)
    (s' : State), Run (library pol (· = Tcb.zero)) ls s →
    (library pol (· = Tcb.zero)).step s l s' → DispatchSafe pol ls l s' := by
  intro h
  obtain ⟨ls, s, hperf, s', hstep, hrun, ha, hst, hq⟩ : ∃ ls s,
      performIf (fun _ _ => True) .mlfq .first [(.create 1 Tcb.zero, 0, 0)] = some (ls, s) ∧
      ∃ s', step .mlfq s .yield 0 0 = some (s', .nothing, some ⟨0, .yielded, some 1⟩) ∧
        s'.runningTcb = some 1 ∧ s'.allocated 0 = true ∧ (s'.tcb 0).state = .ready ∧
        queued .mlfq s' = ↑[0, 0] + (0 + (0 + (0 + 0))) :=
    ⟨_, _, rfl, _, rfl, rfl, rfl, rfl, rfl⟩
  have hr : Run (library .mlfq (· = Tcb.zero)) ls s :=
    (run_first (by simp [Op.Uses]) hperf).of_restrict
  obtain ⟨n, hn, -, hsafe, -⟩ := h .mlfq ls s
    ⟨.yield, 0, 0, .nothing, some ⟨0, .yielded, some 1⟩⟩ s' hr ⟨hstep, by simp⟩ _ _ _ rfl
  have h1 : n = 1 := Option.some.inj (hn.symm.trans hrun)
  have hcount := hsafe.ready 0 (by rw [h1]; decide) ha hst
  rw [hq] at hcount
  exact absurd hcount (by decide)

end Library

end ThreadWorker
