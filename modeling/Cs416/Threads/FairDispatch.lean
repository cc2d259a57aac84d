import Cs416.Threads.HeapPolicies
import Cs416.Threads.SchedulerLoop

/-!
# The dispatch under CFS

A call of `schedule` under CFS reads `running_tcb` for the time slice and pops the heap. With a
thread ready it dispatches the one with the least pair of `vruntime` and `id`, for a slice between
the granularity and the target latency (`FairDispatch`). It does so in every run in which the
virtual runtimes stay within `2 ^ 31` of each other, unless it is entered by `worker_exit`:
`schedule` has set `running_tcb` to `NULL` by then, and `calculate_timeslice_cfs` stores through
it (`fair_dispatch_iff`).
-/

open Function Lts

namespace ThreadWorker

namespace Library

/-- The runs under CFS in which the virtual runtimes stay close together. -/
def cfsRuns : System State Label where
  init := (library .cfs (· = Tcb.zero)).init
  step s l s' := (library .cfs (· = Tcb.zero)).step s l s' ∧ CloseKeys .cfs s'

/-- At most `MAX_THREADS` threads are ready or run. -/
def Few (s : State) : Prop :=
  ∃ F : Finset TcbPtr, F.card ≤ maxThreads ∧ ∀ t, s.allocated t = true →
    (s.tcb t).state = .ready ∨ (s.tcb t).state = .running → t ∈ F

/-- **What a call of `schedule` should do under CFS**, entered in the state `s₁`; it has dealt
with the thread that left the CPU in the state `s₂`. -/
structure FairDispatch (s₁ : State) (entry now : ℤ) (s₂ : State) : Prop where
  left : leave .cfs s₁ entry = some s₂
  /-- `calculate_timeslice_cfs` gets a thread. -/
  current : s₂.runningTcb ≠ none
  /-- The least of the threads that are ready is dispatched. -/
  least : (∃ t, Ready s₂ t) → ∃ s₃ n, sched .cfs s₂ now = some (s₃, some n) ∧
    s₃.runningTcb = some n ∧ Ready s₂ n ∧
      (∀ t, Ready s₂ t → t ≠ n →
        pairKey Tcb.vruntime s₂.tcb n < pairKey Tcb.vruntime s₂.tcb t) ∧
      minSchedGrn * 1000 ≤ s₃.timer ∧ s₃.timer ≤ targetLatency * 1000

section

variable {s s' s₁ s₂ : State} {r n : TcbPtr} {entry now : ℤ} {ls : List Label} {l : Label} {op : Op}
  {why : Leave}

theorem cfsSlice_bounds (size : ℕ) :
    minSchedGrn * 1000 ≤ cfsSlice size ∧ cfsSlice size ≤ targetLatency * 1000 := by
  have hdiv : targetLatency * 1000 / ((size : ℤ) + 1) ≤ targetLatency * 1000 :=
    Int.ediv_le_self _ (by norm_num)
  exact ⟨le_max_right _ _, max_le hdiv (by norm_num)⟩

/-- `sched_cfs` dispatches with the slice of the heap it pops. -/
theorem schedCfs_of_pos (now : ℤ) (hrun : s.runningTcb = some r) (hsize : 0 < s.cfsHeap.size) :
    ∃ s' n, sched .cfs s now = some (s', some n) ∧ s'.runningTcb = some n ∧
      s'.timer = cfsSlice s.cfsHeap.size := by
  rw [sched, schedCfs, hrun]
  obtain ⟨x, hx⟩ := Option.isSome_iff_exists.mp
    ((isSome_pop (cfsCmp (s.setTcb r
      { s.tcb r with cfsTimeslice := cfsSlice s.cfsHeap.size }).tcb) s.cfsHeap).mpr hsize)
  exact ⟨_, x.1, Option.map_eq_some_iff.mpr ⟨x, hx, rfl⟩, rfl, rfl⟩

/-- A heap of distinct threads is no larger than any set that has them. -/
theorem card_le_of_count {m : Multiset TcbPtr} {F : Finset TcbPtr} (hcount : ∀ t, m.count t ≤ 1)
    (hmem : ∀ t ∈ m, t ∈ F) : m.card ≤ F.card := by
  have hnodup : m.Nodup := Multiset.nodup_iff_count_le_one.mpr hcount
  rw [← Multiset.toFinset_card_of_nodup hnodup]
  exact Finset.card_le_card fun t ht => hmem t (Multiset.mem_toFinset.mp ht)

theorem card_contents (h : MinHeap) : h.contents.card = h.size := by
  simp [MinHeap.contents, Slots.slots]

/-- With few threads there is room for the one that goes back. -/
theorem Few.room (hfew : Few s₁) (hpark : Parked .cfs s₁ r)
    (hst : s₁.stateOf r = .running ∨ s₁.stateOf r = .ready) : s₁.cfsHeap.size < maxThreads := by
  obtain ⟨F, hF, hmem⟩ := hfew
  have hadd : requeued .cfs r (s₁.stateOf r) = {r} := by
    rcases hst with hst | hst <;> rw [hst] <;> rfl
  -- once the thread is back, the heap holds each ready thread once
  have hqueue : ∀ t, (s₁.cfsHeap.contents + {r}).count t = if s₁.allocated t = true ∧
      ((s₁.setState r (settled (s₁.stateOf r))).tcb t).state = .ready then 1 else 0 := by
    intro t
    have hq := hpark.queue t
    rw [hadd] at hq
    exact hq
  -- these are among the few that are ready or running
  have hle : (s₁.cfsHeap.contents + {r}).card ≤ F.card := by
    refine card_le_of_count (fun t => ?_) fun t ht => ?_
    · rw [hqueue t]
      split <;> omega
    · have hone := hqueue t
      have hpos := Multiset.one_le_count_iff_mem.mpr ht
      split at hone
      · next hready =>
        refine hmem t hready.1 ?_
        by_cases htr : t = r
        · rw [htr]
          exact hst.symm
        · have hstate := hready.2
          simp only [State.setState, State.setTcb, update_of_ne htr] at hstate
          exact .inl hstate
      · omega
  rw [Multiset.card_add, Multiset.card_singleton, card_contents] at hle
  omega

/-- With room, `schedule` gets to the choice. -/
theorem exists_leave_cfs (entry : ℤ) (hfew : Few s₁) (hrun : s₁.runningTcb = some r)
    (hpark : Parked .cfs s₁ r) : ∃ s₂, leave .cfs s₁ entry = some s₂ := by
  have hpol : HasHeap .cfs := .inr rfl
  by_cases hst : s₁.stateOf r = .running ∨ s₁.stateOf r = .ready
  · obtain ⟨b, hleave, -, -⟩ := leave_adds entry hpol hrun hst
    rw [hleave, ← Option.isSome_iff_exists, isSome_addToScheduler]
    exact hfew.room hpark hst
  · refine ⟨_, leave_of_not_putsBack ?_⟩
    rintro ⟨r', hr', hst'⟩
    obtain rfl := Option.some.inj (hr'.symm.trans hrun)
    exact hst hst'

theorem cfsRuns_run (hr : Run cfsRuns ls s) : Run (library .cfs (· = Tcb.zero)) ls s := by
  induction hr with
  | start h => exact .start h
  | step _ hs ih => exact ih.step hs.1

theorem cfsRuns_sound (hr : Run cfsRuns ls s) : ∃ r, Sound s (some r) (queued .cfs s) :=
  orderly_sound (orderly_of_heap (.inr rfl) (cfsRuns_run hr))

theorem cfsRuns_heapInv (hr : Run cfsRuns ls s) : HeapInv .cfs s := by
  refine hr.history (I := fun _ s => HeapInv .cfs s) ?_ fun ls s l s' hr h hs => ?_
  · rintro s ⟨fresh, rfl, hinit⟩
    exact heapInv_init hinit
  · obtain ⟨r, hsound⟩ := cfsRuns_sound hr
    exact h.step (.inr rfl) hsound ⟨hs.1, fun _ _ _ => ⟨.inr (.inl rfl), by simp⟩⟩ hs.2

/-- A step that enters the scheduler creates no thread. -/
theorem act_enter_acted {pol : Policy} (hs : Sound s (some r) (queued pol s)) (hpol : HasHeap pol)
    (he : act pol s op = some (s₁, .enter why)) : Acted pol s r s₁ (.enter why) := by
  refine act_acted hs (fun u fresh hop => ?_) (fun hm => absurd hm hpol.ne_mlfq) he
  have hleaves := act_leaves he
  rw [hop] at hleaves
  exact hleaves.elim

/-- **The dispatch under CFS is total and fair exactly when a thread does not enter the scheduler
by `worker_exit`**: in every run in which the virtual runtimes stay close, also when `schedule`
chooses, and at most `MAX_THREADS` threads are ready or run. -/
theorem fair_dispatch_iff (hr : Run cfsRuns ls s) (he : act .cfs s op = some (s₁, .enter why))
    (hfew : Few s₁) (hclose : ∀ s₂, leave .cfs s₁ entry = some s₂ → CloseKeys .cfs s₂) :
    (∃ s₂, FairDispatch s₁ entry now s₂) ↔ ∀ v, op ≠ .exit v := by
  have hpol : HasHeap .cfs := .inr rfl
  obtain ⟨r, hs⟩ := cfsRuns_sound hr
  have hinv := cfsRuns_heapInv hr
  obtain ⟨hrun, hpark, -, hnext, hstate⟩ := (act_enter_acted hs hpol he).enter why rfl
  obtain ⟨s₂, hleave⟩ := exists_leave_cfs entry hfew hrun hpark
  obtain ⟨-, hrun₂, -⟩ := leave_spec hrun hleave
  constructor
  · rintro ⟨s₂', hfair⟩ v rfl
    obtain rfl := Option.some.inj (hfair.left.symm.trans hleave)
    -- `running_tcb` is `NULL` after `worker_exit`
    have hwhy : why = .exited v := act_leaves he
    have hterm : s₁.stateOf r = .terminated := by
      rw [hstate, hwhy]
      rfl
    rw [if_pos hterm] at hrun₂
    exact hfair.current hrun₂
  · intro hop
    have hlive : s₁.stateOf r ≠ .terminated := by
      rw [hstate]
      cases why with
      | exited v => exact absurd (act_leaves he).exited (hop v)
      | preempted => simp [Leave.state]
      | yielded => simp [Leave.state]
      | blocked => simp [Leave.state]
    rw [if_neg hlive] at hrun₂
    refine ⟨s₂, hleave, by rw [hrun₂]; simp, fun ⟨t, ht⟩ => ?_⟩
    have hmem := (mem_at_choice hpol hrun hpark hleave).mpr ht
    have hsize : 0 < s₂.cfsHeap.size := by
      rw [← card_contents]
      exact Multiset.card_pos_iff_exists_mem.mpr ⟨t, hmem⟩
    obtain ⟨s₃, n, hpick, hrun₃, htimer⟩ := schedCfs_of_pos now hrun₂ hsize
    have hbound : s₁.nextThreadId ≤ 2 ^ 31 := hnext.trans_le (hinv.nextThreadId.trans (by norm_num))
    obtain ⟨-, hn, hleast⟩ := least_at_choice hpol hrun hpark hleave hpick hs (act_called he)
      hinv.ordered hbound (hclose s₂ hleave)
    have hslice := cfsSlice_bounds s₂.cfsHeap.size
    rw [← htimer] at hslice
    exact ⟨s₃, n, hpick, hrun₃, hn, hleast, hslice⟩

/-- The main thread and thread `1`. -/
def Two (s : State) : Prop := s.allocated = update (· == 0) 1 true

theorem Two.eq (h : Two s) {t : TcbPtr} (ht : s.allocated t = true) : t = 0 ∨ t = 1 := by
  rw [h, update_apply] at ht
  split at ht
  · exact .inr ‹_›
  · exact .inl (beq_iff_eq.mp ht)

theorem Two.closeKeys (h : Two s) (h0 : (s.tcb 0).vruntime = 0) (h1 : (s.tcb 1).vruntime = 0) :
    CloseKeys .cfs s := by
  have hzero : ∀ u, s.allocated u = true → heapField .cfs (s.tcb u) = 0 := by
    intro u hu
    rcases h.eq hu with rfl | rfl
    · exact h0
    · exact h1
  intro t t' ha ha' _ _
  rw [hzero t ha, hzero t' ha']
  norm_num

theorem Two.few (h : Two s) : Few s := ⟨{0, 1}, by decide, fun t ha _ => by simpa using h.eq ha⟩

end

/-- The main thread creates thread `1`, and then enters the scheduler. -/
theorem run_create (op : Op) (why : Leave) (h : ∃ s, step .cfs .first (.create 1 Tcb.zero) 0 0
      = some (s, .created 1, none) ∧ Two s ∧ (s.tcb 0).vruntime = 0 ∧ (s.tcb 1).vruntime = 0 ∧
    ∃ s₁, act .cfs s op = some (s₁, .enter why) ∧ Two s₁ ∧
    ∃ s₂, leave .cfs s₁ 0 = some s₂ ∧ Two s₂ ∧ (s₂.tcb 0).vruntime = 0 ∧ (s₂.tcb 1).vruntime = 0) :
    ∃ ls s s₁, Run cfsRuns ls s ∧ act .cfs s op = some (s₁, .enter why) ∧ Few s₁ ∧
      ∀ s₂, leave .cfs s₁ 0 = some s₂ → CloseKeys .cfs s₂ := by
  obtain ⟨s, hcreate, htwo, h0, h1, s₁, hact, htwo₁, s₂, hleave, htwo₂, h0', h1'⟩ := h
  have hstart : Run cfsRuns [] State.first := .start ⟨Tcb.zero, rfl, State.first_isInit⟩
  have hr : Run cfsRuns [⟨.create 1 Tcb.zero, 0, 0, .created 1, none⟩] s := by
    refine hstart.step ⟨⟨hcreate, ?_⟩, htwo.closeKeys h0 h1⟩
    rintro u fresh hop
    exact (Op.create.inj hop).2.symm
  refine ⟨_, s, s₁, hr, hact, htwo₁.few, fun s₂' hleave' => ?_⟩
  rw [← Option.some.inj (hleave.symm.trans hleave')]
  exact htwo₂.closeKeys h0' h1'

/-- The timer preempts the main thread. -/
theorem fair_dispatch_first_tick : ∃ ls s s₁, Run cfsRuns ls s ∧
    act .cfs s .tick = some (s₁, .enter .preempted) ∧ ∃ s₂, FairDispatch s₁ 0 0 s₂ := by
  obtain ⟨ls, s, s₁, hr, hact, hfew, hclose⟩ := run_create .tick .preempted
    ⟨_, rfl, rfl, rfl, rfl, _, rfl, rfl, _, rfl, rfl, rfl, rfl⟩
  exact ⟨ls, s, s₁, hr, hact, (fair_dispatch_iff hr hact hfew hclose).mpr fun v => by simp⟩

/-- The main thread ends while thread `1` is ready. -/
theorem exit_reads_null : ¬ ∀ ls s op s₁ why entry now, Run cfsRuns ls s →
    act .cfs s op = some (s₁, .enter why) → Few s₁ →
    (∀ s₂, leave .cfs s₁ entry = some s₂ → CloseKeys .cfs s₂) →
      ∃ s₂, FairDispatch s₁ entry now s₂ := by
  intro h
  obtain ⟨ls, s, s₁, hr, hact, hfew, hclose⟩ := run_create (.exit 0) (.exited 0)
    ⟨_, rfl, rfl, rfl, rfl, _, rfl, rfl, _, rfl, rfl, rfl, rfl⟩
  obtain ⟨s₂, hfair⟩ := h ls s _ s₁ _ 0 0 hr hact hfew hclose
  obtain ⟨r, hs⟩ := cfsRuns_sound hr
  obtain ⟨hrun, -, -, -, hstate⟩ := (act_enter_acted hs (.inr rfl) hact).enter _ rfl
  have hrun₂ := (leave_spec hrun hfair.left).2.1
  rw [hstate, if_pos (by rfl)] at hrun₂
  exact hfair.current hrun₂

end Library

end ThreadWorker
