import Cs416.Lib.Lts
import Cs416.Threads.Tcb

/-!
# Signal masks and saved contexts

What a timer tick saves depends on the signal mask at the statement it interrupts, so here the
scheduler is cut into statements and the code of a thread is only a position in it.

`scheduler_context` is made once, with `SIGPROF` unmasked, and nothing is ever stored into it:
every switch to it starts `schedule()` from its first statement, unmasked, until
`block_timer_signal` has run. The `sched_*` functions unmask the signal again before their
`setcontext`. The statements between the two are masked and nothing can come between them, so
what they do to the run queue is left to a `Choice`; the policies differ in how they leave
their loop.

A tick in one of the two windows stores the scheduler's own computation into the context of
`running_tcb` (`preemption_saves_scheduler`). `saved_contexts` says that without such ticks, and
with no fall-back to the main thread while another thread is `running_tcb`, every saved context
is where its thread stopped.
-/

open Function Lts

namespace ThreadWorker.Signals

/-- The policies the Makefile can select. -/
inductive Policy
  | psjf
  | mlfq
  | cfs
  | rr
  deriving DecidableEq, Repr

/-- The next statement of the scheduler. -/
inductive SchedPc
  /-- `block_timer_signal()` in `schedule`. -/
  | enter
  /-- The `switch` on the state of `running_tcb`. -/
  | switchState
  /-- The part of `sched_mlfq` before its loop. -/
  | mlfqCurrent
  /-- One iteration of the loop of `sched_*`. -/
  | loop
  /-- `unblock_timer_signal()` before the next statement. -/
  | unblock
  /-- `setcontext(&running_tcb->context)`. -/
  | resume
  /-- `block_timer_signal()` before the next but one. -/
  | blockMain
  /-- `unblock_timer_signal()` before the next statement. -/
  | unblockMain
  /-- `setcontext(&main_tcb->context)`. -/
  | resumeMain
  deriving DecidableEq, Repr

/-- A computation. -/
inductive Comp
  /-- The code of thread `t`, which has performed `n` statements. -/
  | code (t : TcbPtr) (n : ℕ)
  /-- `timer_handler`, which has interrupted another computation. -/
  | handler (interrupted : Comp)
  | sched (pc : SchedPc)
  deriving DecidableEq, Repr

/-- The thread whose code the computation is. -/
def Comp.owner : Comp → Option TcbPtr
  | .code t _ => some t
  | .handler c => c.owner
  | .sched _ => none

/-- The computation is the scheduler. -/
def Comp.isSched : Comp → Bool
  | .sched _ => true
  | _ => false

/-- How far the thread has come. -/
def Comp.position : Comp → ℕ
  | .code _ n => n
  | .handler c => c.position
  | .sched _ => 0

/-- A `ucontext_t`: a computation, and whether its mask blocks `SIGPROF`. -/
structure Context where
  comp : Comp
  masked : Bool
  deriving DecidableEq, Repr

/-- The process. -/
structure State where
  context : TcbPtr → Context
  stateOf : TcbPtr → ThreadState
  mainTcb : TcbPtr
  running : Option TcbPtr
  cpu : Comp
  masked : Bool
  /-- The threads that have been created. -/
  known : TcbPtr → Bool
  /-- How many statements of its own the thread has performed; nothing reads it. -/
  position : TcbPtr → ℕ

/-- What an iteration of a scheduler loop finds. -/
structure Choice where
  /-- What `heap_pop` or `dequeue` returns. -/
  next : Option TcbPtr
  /-- `thread_count <= 1`. -/
  fewThreads : Bool
  /-- `has_blocked_threads()`. -/
  anyBlocked : Bool
  /-- `time_used >= time_slice`. -/
  usedUp : Bool
  deriving DecidableEq, Repr

/-- Where a scheduler loop goes on when it has found no thread. -/
def Policy.noThread (policy : Policy) (c : Choice) : SchedPc :=
  match policy with
  | .psjf => if c.fewThreads then .blockMain else if c.anyBlocked then .loop else .blockMain
  | .mlfq => if c.fewThreads then .unblockMain else if c.anyBlocked then .loop else .blockMain
  | .cfs => if c.fewThreads then .unblockMain else if c.anyBlocked then .loop else .blockMain
  | .rr => if c.fewThreads then .unblockMain else if c.anyBlocked then .unblockMain else .loop

namespace State

/-- `setcontext`. -/
def setcontext (s : State) (c : Context) : State := { s with cpu := c.comp, masked := c.masked }

/-- `swapcontext(&r->context, &scheduler_context)` by the computation `c`. -/
def swapToScheduler (s : State) (r : TcbPtr) (c : Comp) (masked : Bool) : State :=
  { s with
    context := update s.context r ⟨c, masked⟩
    cpu := .sched .enter
    masked := false }

def goto (s : State) (pc : SchedPc) : State := { s with cpu := .sched pc }

/-- One statement of the scheduler. -/
def schedStep (policy : Policy) (choice : Choice) (s : State) : SchedPc → Option State
  | .enter => some { s.goto .switchState with masked := true }
  | .switchState =>
    let pc : SchedPc := if policy = .mlfq then .mlfqCurrent else .loop
    match s.running with
    | none => some (s.goto pc)
    | some r =>
      match s.stateOf r with
      | .running => some { s.goto pc with stateOf := update s.stateOf r .ready }
      | .ready => some (s.goto pc)
      | .blocked => some (s.goto pc)
      | .terminated => some { s.goto pc with running := none }
  | .mlfqCurrent =>
    match s.running with
    | none => some (s.goto .loop)
    | some r =>
      match s.stateOf r with
      | .running =>
        if choice.usedUp then some { s.goto .loop with stateOf := update s.stateOf r .ready }
        else some (s.goto .unblock)
      | .ready => some (s.goto .loop)
      | .blocked => some (s.goto .loop)
      | .terminated => some { s.goto .loop with running := none }
  | .loop =>
    -- calculate_timeslice_cfs(running_tcb)
    if policy = .cfs ∧ s.running = none then none
    else
      match choice.next with
      | none => some (s.goto (policy.noThread choice))
      | some p =>
        if s.known p then
          some { s.goto .unblock with stateOf := update s.stateOf p .running, running := some p }
        else none
  | .unblock => some { s.goto .resume with masked := false }
  | .resume => s.running.map fun r => s.setcontext (s.context r)
  | .blockMain => some { s.goto .resumeMain with masked := true }
  | .unblockMain => some { s.goto .resumeMain with masked := false }
  | .resumeMain => some (s.setcontext (s.context s.mainTcb))

end State

inductive Label
  /-- The thread on the CPU performs a statement, which may change the state of a thread. -/
  | code (t : TcbPtr) (st : ThreadState)
  /-- It performs `swapcontext(&running_tcb->context, &scheduler_context)`. -/
  | swap
  /-- It creates the thread `u`. -/
  | create (u : TcbPtr)
  | sched (choice : Choice)
  /-- `timer_handler` returns. -/
  | handlerReturn
  /-- `SIGPROF` is delivered. -/
  | tick
  deriving DecidableEq, Repr

/-- One step. A new thread gets a block in which no thread lives. -/
def step (policy : Policy) (s : State) : Label → Option State
  | .code u st =>
    match s.cpu with
    | .code t n =>
      some { s with
        cpu := .code t (n + 1)
        position := update s.position t (n + 1)
        stateOf := update s.stateOf u st }
    | _ => none
  | .swap =>
    match s.cpu, s.running with
    | .code t n, some r => some (s.swapToScheduler r (.code t n) s.masked)
    | _, _ => none
  | .create u =>
    match s.cpu with
    | .code t _ =>
      if u ≠ t ∧ u ≠ s.mainTcb ∧ s.running ≠ some u ∧ (s.known u → s.stateOf u = .terminated) then
        some { s with
          -- getcontext saves the creator's mask
          context := update s.context u ⟨.code u 0, s.masked⟩
          stateOf := update s.stateOf u .ready
          known := update s.known u true
          position := update s.position u 0 }
      else none
    | _ => none
  | .sched choice =>
    match s.cpu with
    | .sched pc => s.schedStep policy choice pc
    | _ => none
  | .handlerReturn =>
    match s.cpu with
    | .handler c => some { s with cpu := c, masked := false }
    | _ => none
  | .tick =>
    if s.masked then none
    else
      match s.running with
      | none => some s
      -- the signal stays blocked while the handler runs
      | some r => some (s.swapToScheduler r (.handler s.cpu) true)

/-- The state after `init_main_thread`: the main thread runs, with the signal unmasked. -/
structure IsInit (s : State) : Prop where
  cpu : s.cpu = .code s.mainTcb 0
  running : s.running = some s.mainTcb
  masked : s.masked = false
  known : ∀ t, s.known t = true ↔ t = s.mainTcb
  position : s.position s.mainTcb = 0

def machine (policy : Policy) : System State Label where
  init := IsInit
  step s l s' := step policy s l = some s'

/-- The tick does not land in the scheduler's code while a thread is `running_tcb`, and the
scheduler falls back to the main thread only when no other thread is. -/
def KeepsContexts (s : State) : Label → Prop
  | .tick => s.running ≠ none → s.cpu.isSched = false
  | .sched _ => s.cpu = .sched .resumeMain → s.running = none ∨ s.running = some s.mainTcb
  | _ => True

instance (s : State) : (l : Label) → Decidable (KeepsContexts s l)
  | .tick => inferInstanceAs (Decidable (_ → _))
  | .sched _ => inferInstanceAs (Decidable (_ → _))
  | .code _ _ | .swap | .create _ | .handlerReturn => .isTrue trivial

/-- The statements at which the scheduler runs with the signal unmasked. -/
def SchedPc.window : SchedPc → Bool
  | .enter | .resume | .resumeMain => true
  | _ => false

/-- The context holds the thread `t` where it stands. -/
def State.Parked (s : State) (t : TcbPtr) : Prop :=
  (s.context t).comp.owner = some t ∧ (s.context t).comp.position = s.position t

/-- Every thread is on the CPU as `running_tcb`, or parked in its own context. -/
structure Inv (s : State) : Prop where
  main : s.known s.mainTcb = true
  running : ∀ r, s.running = some r → s.known r = true
  parked : ∀ t, s.known t = true → s.cpu.owner ≠ some t → s.Parked t
  onCpu : ∀ t, s.cpu.owner = some t → s.known t = true ∧ s.cpu.position = s.position t ∧
    (s.running = some t ∨ s.running = none ∧ t = s.mainTcb)
  owned : (∃ pc, s.cpu = .sched pc) ∨ ∃ t, s.cpu.owner = some t
  masked : ∀ pc, s.cpu = .sched pc → pc.window = false → s.masked = true

section
variable {policy : Policy} {s s' : State}

/-- **A statement of the scheduler** goes on to the next one, or to the context of a thread. It
is masked at the next one unless that is a window. -/
theorem State.schedStep_cases {pc : SchedPc} {choice : Choice}
    (hs : s.schedStep policy choice pc = some s') :
    (∃ pc' running stateOf masked,
      s' = { s with cpu := .sched pc', running := running, stateOf := stateOf, masked := masked } ∧
        (∀ r, running = some r → s.running = some r ∨ s.known r = true) ∧
        (pc'.window = false → masked = true ∨ pc.window = false ∧ masked = s.masked)) ∨
      ∃ t, s' = s.setcontext (s.context t) ∧
        (pc = .resume ∧ s.running = some t ∨ pc = .resumeMain ∧ t = s.mainTcb) := by
  -- every statement but `setcontext` goes on to the next one that its tests name
  cases pc with
  | enter =>
    exact .inl ⟨_, _, _, _, (Option.some.inj hs).symm, fun _ => .inl, fun _ => .inl rfl⟩
  | switchState =>
    simp only [State.schedStep] at hs
    split at hs
    · exact .inl ⟨_, _, _, _, (Option.some.inj hs).symm, fun _ => .inl, fun _ => .inr ⟨rfl, rfl⟩⟩
    · split at hs
      · exact .inl ⟨_, _, _, _, (Option.some.inj hs).symm, fun _ => .inl, fun _ => .inr ⟨rfl, rfl⟩⟩
      · exact .inl ⟨_, _, _, _, (Option.some.inj hs).symm, fun _ => .inl, fun _ => .inr ⟨rfl, rfl⟩⟩
      · exact .inl ⟨_, _, _, _, (Option.some.inj hs).symm, fun _ => .inl, fun _ => .inr ⟨rfl, rfl⟩⟩
      · exact .inl ⟨_, _, _, _, (Option.some.inj hs).symm, fun r hr => absurd hr (by simp),
          fun _ => .inr ⟨rfl, rfl⟩⟩
  | mlfqCurrent =>
    simp only [State.schedStep] at hs
    split at hs
    · exact .inl ⟨_, _, _, _, (Option.some.inj hs).symm, fun _ => .inl, fun _ => .inr ⟨rfl, rfl⟩⟩
    · split at hs
      · split at hs
        · exact .inl ⟨_, _, _, _, (Option.some.inj hs).symm, fun _ => .inl,
            fun _ => .inr ⟨rfl, rfl⟩⟩
        · exact .inl ⟨_, _, _, _, (Option.some.inj hs).symm, fun _ => .inl,
            fun _ => .inr ⟨rfl, rfl⟩⟩
      · exact .inl ⟨_, _, _, _, (Option.some.inj hs).symm, fun _ => .inl, fun _ => .inr ⟨rfl, rfl⟩⟩
      · exact .inl ⟨_, _, _, _, (Option.some.inj hs).symm, fun _ => .inl, fun _ => .inr ⟨rfl, rfl⟩⟩
      · exact .inl ⟨_, _, _, _, (Option.some.inj hs).symm, fun r hr => absurd hr (by simp),
          fun _ => .inr ⟨rfl, rfl⟩⟩
  | loop =>
    simp only [State.schedStep] at hs
    split at hs
    · exact absurd hs (by simp)
    · split at hs
      · exact .inl ⟨_, _, _, _, (Option.some.inj hs).symm, fun _ => .inl, fun _ => .inr ⟨rfl, rfl⟩⟩
      · split at hs
        -- the thread found is one of the known threads
        · rename_i p _ hp
          exact .inl ⟨_, _, _, _, (Option.some.inj hs).symm,
            fun r hr => .inr (Option.some.inj hr ▸ hp), fun _ => .inr ⟨rfl, rfl⟩⟩
        · exact absurd hs (by simp)
  -- the scheduler unmasks here: the next statement is a window
  | unblock =>
    exact .inl ⟨.resume, _, _, _, (Option.some.inj hs).symm, fun _ => .inl,
      fun hw => absurd hw (by simp [SchedPc.window])⟩
  | resume =>
    obtain ⟨r, hr, rfl⟩ := Option.map_eq_some_iff.mp hs
    exact .inr ⟨r, rfl, .inl ⟨rfl, hr⟩⟩
  | blockMain =>
    exact .inl ⟨_, _, _, _, (Option.some.inj hs).symm, fun _ => .inl, fun _ => .inl rfl⟩
  | unblockMain =>
    exact .inl ⟨.resumeMain, _, _, _, (Option.some.inj hs).symm, fun _ => .inl,
      fun hw => absurd hw (by simp [SchedPc.window])⟩
  | resumeMain => exact .inr ⟨s.mainTcb, (Option.some.inj hs).symm, .inr ⟨rfl, rfl⟩⟩

theorem IsInit.inv (h : IsInit s) : Inv s where
  main := (h.known _).mpr rfl
  running r hr := by
    rw [h.running] at hr
    exact (h.known r).mpr (Option.some.inj hr).symm
  parked t ht hc := by
    rw [h.cpu, (h.known t).mp ht] at hc
    exact absurd rfl hc
  onCpu t ht := by
    rw [h.cpu] at ht
    obtain rfl := Option.some.inj ht
    exact ⟨(h.known _).mpr rfl, by rw [h.cpu, h.position]; rfl, .inl h.running⟩
  owned := .inr ⟨s.mainTcb, by rw [h.cpu]; rfl⟩
  masked pc hpc := by
    rw [h.cpu] at hpc
    exact absurd hpc (by simp)

/-- A switch to the scheduler parks the thread on the CPU. -/
theorem Inv.swapToScheduler (h : Inv s) {r : TcbPtr} {c : Comp} {b : Bool}
    (hcpu : s.cpu.owner = some r) (howner : c.owner = some r)
    (hpos : c.position = s.cpu.position) : Inv (s.swapToScheduler r c b) where
  main := h.main
  running := h.running
  parked t ht _ := by
    rw [State.Parked, State.swapToScheduler]
    dsimp only
    by_cases htr : t = r
    · rw [htr, update_self]
      exact ⟨howner, hpos.trans (h.onCpu r hcpu).2.1⟩
    · rw [update_of_ne htr]
      exact h.parked t ht fun ht' => htr (Option.some.inj (ht'.symm.trans hcpu))
  onCpu t ht := absurd ht (by simp [State.swapToScheduler, Comp.owner])
  owned := .inl ⟨.enter, rfl⟩
  masked pc hpc hw := by
    obtain rfl := Comp.sched.inj hpc
    exact absurd hw (by simp [SchedPc.window])

/-- The scheduler moves on without touching a context, and `running_tcb` stays a thread. -/
theorem Inv.goto (h : Inv s) {pc pc' : SchedPc} (hcpu : s.cpu = .sched pc)
    {running : Option TcbPtr} (hrun : ∀ r, running = some r → s.known r = true)
    {stateOf : TcbPtr → ThreadState} {masked : Bool}
    (hmask : pc'.window = false → masked = true) :
    Inv { s with cpu := .sched pc', running := running, stateOf := stateOf, masked := masked } where
  main := h.main
  running := hrun
  parked t ht _ := h.parked t ht (by rw [hcpu]; simp [Comp.owner])
  onCpu t ht := absurd ht (by simp [Comp.owner])
  owned := .inl ⟨pc', rfl⟩
  masked pc'' hpc hw := by
    obtain rfl := Comp.sched.inj hpc
    exact hmask hw

/-- A parked thread goes on where it stopped. -/
theorem Inv.setcontext (h : Inv s) {pc : SchedPc} (hcpu : s.cpu = .sched pc) {t : TcbPtr}
    (ht : s.known t = true) (hrun : s.running = some t ∨ s.running = none ∧ t = s.mainTcb) :
    Inv (s.setcontext (s.context t)) := by
  have hidle : ∀ u, s.cpu.owner ≠ some u := fun u => by rw [hcpu]; simp [Comp.owner]
  obtain ⟨howner, hpos⟩ := h.parked t ht (hidle t)
  refine ⟨h.main, h.running, fun u hu _ => h.parked u hu (hidle u), fun u hu => ?_,
    .inr ⟨t, howner⟩, fun pc' hpc => ?_⟩
  · have hut : u = t := Option.some.inj (hu.symm.trans howner)
    rw [hut]
    exact ⟨ht, hpos, hrun⟩
  · rw [State.setcontext] at hpc
    dsimp only at hpc
    rw [hpc] at howner
    exact absurd howner (by simp [Comp.owner])

theorem Inv.sched (h : Inv s) {pc : SchedPc} (hcpu : s.cpu = .sched pc) {choice : Choice}
    (hmain : pc = .resumeMain → s.running = none ∨ s.running = some s.mainTcb)
    (hs : s.schedStep policy choice pc = some s') : Inv s' := by
  obtain ⟨pc', running, stateOf, masked, rfl, hrun, hmask⟩ | ⟨t, rfl, ⟨rfl, hr⟩ | ⟨rfl, rfl⟩⟩ :=
    State.schedStep_cases hs
  · refine h.goto hcpu (fun r hr => (hrun r hr).elim (h.running r) id) fun hw => ?_
    obtain hm | ⟨hpc, hm⟩ := hmask hw
    · exact hm
    · exact hm.trans (h.masked pc hcpu hpc)
  · exact h.setcontext hcpu (h.running t hr) (.inl hr)
  · exact h.setcontext hcpu h.main ((hmain rfl).elim (fun hr => .inr ⟨hr, rfl⟩) .inl)

/-- Outside the scheduler the code on the CPU is that of `running_tcb`. -/
theorem Inv.saves_own (h : Inv s) {r : TcbPtr} (hr : s.running = some r)
    (hc : s.cpu.isSched = false) : s.cpu.owner = some r := by
  obtain ⟨t, ht⟩ := h.owned.resolve_left fun ⟨pc, hpc⟩ => by simp [hpc, Comp.isSched] at hc
  obtain ⟨-, -, hrun | ⟨hrun, -⟩⟩ := h.onCpu t ht
  · rw [ht, ← hrun, hr]
  · exact absurd (hr.symm.trans hrun) (by simp)

theorem Inv.step (h : Inv s) {l : Label} (hs : step policy s l = some s')
    (hl : KeepsContexts s l) : Inv s' := by
  cases l with
  | code u st =>
    simp only [Signals.step] at hs
    split at hs
    · rename_i t n hc
      obtain rfl := Option.some.inj hs
      have hown : s.cpu.owner = some t := by rw [hc]; rfl
      refine ⟨h.main, h.running, fun x hx hxt => ?_, fun x hx => ?_, .inr ⟨t, rfl⟩,
        fun pc hpc => by simp at hpc⟩
      · have hne : x ≠ t := fun hxt' => hxt (by rw [hxt']; rfl)
        obtain ⟨ho, hp⟩ := h.parked x hx (by rw [hown]; exact fun he => hne (Option.some.inj he).symm)
        exact ⟨ho, by dsimp only; rw [update_of_ne hne]; exact hp⟩
      · obtain rfl := Option.some.inj hx
        obtain ⟨hk, -, hr⟩ := h.onCpu t hown
        exact ⟨hk, by dsimp only; rw [update_self]; rfl, hr⟩
    · exact absurd hs (by simp)
  | swap =>
    simp only [Signals.step] at hs
    split at hs
    · rename_i t n r hc hr
      obtain rfl := Option.some.inj hs
      have hown : s.cpu.owner = some t := by rw [hc]; rfl
      -- outside the scheduler the thread on the CPU is `running_tcb`
      have hrt : r = t := by
        obtain ⟨-, -, hrun | ⟨hrun, -⟩⟩ := h.onCpu t hown
        · exact Option.some.inj (hr.symm.trans hrun)
        · exact absurd (hr.symm.trans hrun) (by simp)
      subst hrt
      -- its context is saved where it stands
      exact h.swapToScheduler hown rfl (by rw [hc])
    · exact absurd hs (by simp)
  | create u =>
    simp only [Signals.step] at hs
    split at hs
    · rename_i t n hc
      split at hs
      · rename_i hu
        obtain rfl := Option.some.inj hs
        obtain ⟨hut, humain, hur, -⟩ := hu
        have hown : s.cpu.owner = some t := by rw [hc]; rfl
        have hknown : ∀ x, s.known x = true → update s.known u true x = true := by
          intro x hx
          rw [update_apply]
          split
          · rfl
          · exact hx
        refine ⟨hknown _ h.main, fun r hr => hknown r (h.running r hr), fun x hx hxt => ?_,
          fun x hx => ?_, .inr ⟨t, hown⟩, fun pc hpc => absurd (hc.symm.trans hpc) (by simp)⟩
        -- the context of the new thread is at its entry, all others stay
        · rw [State.Parked]
          dsimp only at hx ⊢
          by_cases hxu : x = u
          · rw [hxu, update_self, update_self]
            exact ⟨rfl, rfl⟩
          · rw [update_of_ne hxu] at hx ⊢
            rw [update_of_ne hxu]
            exact h.parked x hx hxt
        · obtain ⟨hk, hp, hr⟩ := h.onCpu x hx
          have hxu : x ≠ u := by
            rw [Option.some.inj (hx.symm.trans hown)]
            exact Ne.symm hut
          exact ⟨hknown x hk, by dsimp only; rw [update_of_ne hxu]; exact hp, hr⟩
      · exact absurd hs (by simp)
    · exact absurd hs (by simp)
  | sched choice =>
    simp only [Signals.step] at hs
    split at hs
    · rename_i pc hc
      exact h.sched hc (fun hpc => hl (by rw [hc, hpc])) hs
    · exact absurd hs (by simp)
  | handlerReturn =>
    simp only [Signals.step] at hs
    split at hs
    · rename_i c hc
      obtain rfl := Option.some.inj hs
      have hown : c.owner = s.cpu.owner := by rw [hc]; rfl
      have hpos : c.position = s.cpu.position := by rw [hc]; rfl
      -- what the handler interrupted is the code of a thread, not the scheduler
      obtain ⟨t, ht⟩ : ∃ t, c.owner = some t := by
        rw [hown]
        exact h.owned.resolve_left fun ⟨pc, hpc⟩ => absurd (hc.symm.trans hpc) (by simp)
      refine ⟨h.main, h.running, fun t ht hc' => h.parked t ht (hown ▸ hc'), fun t ht => ?_,
        .inr ⟨t, ht⟩, fun pc hpc => ?_⟩
      · obtain ⟨hk, hp, hr⟩ := h.onCpu t (hown ▸ ht)
        exact ⟨hk, hpos.trans hp, hr⟩
      · dsimp only at hpc
        rw [hpc] at ht
        exact absurd ht (by simp [Comp.owner])
    · exact absurd hs (by simp)
  | tick =>
    simp only [Signals.step] at hs
    split at hs
    · exact absurd hs (by simp)
    · split at hs
      -- a tick without `running_tcb` does nothing
      · rw [← Option.some.inj hs]
        exact h
      · rename_i r hr
        obtain rfl := Option.some.inj hs
        have hown := h.saves_own hr (hl (by rw [hr]; simp))
        exact h.swapToScheduler hown hown rfl
end

/-- **A preemption saves the right context**, under each policy, in a run that meets
`KeepsContexts`: whenever the handler is about to store into the context of `running_tcb`, it
has interrupted that thread's own code, and every thread that is not on the CPU is parked in
its context where it stopped. The scheduler runs unmasked only at its first statement and at a
`setcontext`, so these are all the windows. -/
theorem saved_contexts (policy : Policy) {ls : List Label} {s : State}
    (hr : Run ((machine policy).restrict KeepsContexts) ls s) :
    (KeepsContexts s .tick → ∀ r, s.running = some r → s.cpu.owner = some r) ∧
      (∀ t, s.known t = true → s.cpu.owner ≠ some t → s.Parked t) ∧
      ∀ pc, s.cpu = .sched pc → s.masked = false → pc.window = true := by
  have h : Inv s := by
    refine hr.invariant (I := Inv) (fun s h => IsInit.inv h) fun s l s' hI hs => ?_
    exact hI.step hs.1 hs.2
  refine ⟨fun hl r hrun => h.saves_own hrun (hl (by rw [hrun]; simp)), h.parked,
    fun pc hpc hm => ?_⟩
  by_contra hw
  rw [h.masked pc hpc (by simpa using hw)] at hm
  exact absurd hm (by simp)

/-- The main thread, in block `0`, right after `init_main_thread`. -/
def State.first : State where
  context _ := ⟨.code 0 0, false⟩
  stateOf t := if t = 0 then .running else .terminated
  mainTcb := 0
  running := some 0
  cpu := .code 0 0
  masked := false
  known t := t == 0
  position _ := 0

theorem State.first_isInit : IsInit State.first where
  cpu := rfl
  running := rfl
  masked := rfl
  known _ := beq_iff_eq
  position := rfl

/-- The scheduler finds thread `1` ready. -/
def Choice.one : Choice where
  next := some 1
  fewThreads := false
  anyBlocked := false
  usedUp := false

/-- The main thread is preempted and the scheduler dispatches a new thread. -/
def preemptMain : List Label :=
  [.create 1, .code 0 .running, .tick, .sched .one, .sched .one, .sched .one, .sched .one,
    .sched .one]

theorem saved_contexts_preemptMain : ∃ s,
    Run ((machine .rr).restrict KeepsContexts) preemptMain s ∧ s.cpu.owner = some 1 ∧
      s.context 0 = ⟨.handler (.code 0 1), true⟩ ∧ s.Parked 0 := by
  obtain ⟨s, hs, hcpu, hknown, hctx⟩ : ∃ s,
      steps (stepIf KeepsContexts (step .rr)) .first preemptMain = some s ∧
      s.cpu.owner = some 1 ∧ s.known 0 = true ∧ s.context 0 = ⟨.handler (.code 0 1), true⟩ :=
    ⟨_, rfl, rfl, rfl, rfl⟩
  have hr : Run ((machine .rr).restrict KeepsContexts) preemptMain s :=
    .stepsIf (fun _ _ _ h => h) State.first_isInit hs
  exact ⟨s, hr, hcpu, hctx, (saved_contexts .rr hr).2.1 0 hknown (by rw [hcpu]; decide)⟩

/-- Under each policy: the main thread yields, and a tick lands in `schedule()` before
`block_timer_signal` has run. The handler stores the scheduler into the context of the main
thread. -/
theorem tick_in_scheduler (policy : Policy) : ∃ s s',
    Run (machine policy) [.code 0 .ready, .swap] s ∧ s.running = some 0 ∧
      s.cpu = .sched .enter ∧ step policy s .tick = some s' ∧
      s'.context 0 = ⟨.handler (.sched .enter), true⟩ ∧ ¬ s'.Parked 0 := by
  have hr : Run (machine policy) [] State.first := .start State.first_isInit
  obtain ⟨s, hs, hrun, hcpu, hm⟩ : ∃ s, steps (step policy) .first [.code 0 .ready, .swap] = some s ∧
      s.running = some 0 ∧ s.cpu = .sched .enter ∧ s.masked = false := ⟨_, rfl, rfl, rfl, rfl⟩
  have hctx : (s.swapToScheduler 0 (.handler s.cpu) true).context 0
      = ⟨.handler (.sched .enter), true⟩ := by
    rw [State.swapToScheduler, hcpu]
    rfl
  refine ⟨s, _, hr.steps (fun _ _ _ h => h) hs, hrun, hcpu, ?_, hctx, fun hp => ?_⟩
  · simp only [step, hm, hrun]
    rfl
  · rw [State.Parked, hctx] at hp
    exact absurd hp.1 (by simp [Comp.owner])

/-- The context of the main thread then holds the scheduler. -/
theorem preemption_saves_scheduler : ∃ s s',
    Run (machine .rr) [.code 0 .ready, .swap] s ∧ s.running = some 0 ∧
      s.cpu = .sched .enter ∧ step .rr s .tick = some s' ∧
      s'.context 0 = ⟨.handler (.sched .enter), true⟩ ∧ ¬ s'.Parked 0 :=
  tick_in_scheduler .rr

/-! ### The mask in the loops of the scheduler -/

/-- Where the computation is the scheduler, it is at a statement that runs unmasked. -/
def Comp.AtWindow : Comp → Prop
  | .code _ _ => True
  | .handler c => c.AtWindow
  | .sched pc => pc.window = true

/-- The scheduler is masked outside its windows, whatever the ticks have stored. -/
structure MaskInv (s : State) : Prop where
  main : s.known s.mainTcb = true
  running : ∀ r, s.running = some r → s.known r = true
  masked : ∀ pc, s.cpu = .sched pc → pc.window = false → s.masked = true
  handler : ∀ c, s.cpu = .handler c → c.AtWindow
  /-- The main thread has no saved context while it runs for the first time. -/
  saved : ∀ t, s.known t = true → (s.context t).comp.AtWindow ∨
    t = s.mainTcb ∧ s.running = some s.mainTcb ∧ ∃ n, s.cpu = .code s.mainTcb n

section
variable {policy : Policy} {s s' : State}

theorem IsInit.maskInv (h : IsInit s) : MaskInv s where
  main := (h.known _).mpr rfl
  running r hr := by
    rw [h.running] at hr
    exact (h.known r).mpr (Option.some.inj hr).symm
  masked pc hpc := absurd (h.cpu.symm.trans hpc) (by simp)
  handler c hc := absurd (h.cpu.symm.trans hc) (by simp)
  saved t ht := .inr ⟨(h.known t).mp ht, h.running, 0, h.cpu⟩

/-- What is stored is at a window when it was on the CPU unmasked. -/
theorem MaskInv.swapToScheduler (h : MaskInv s) {r : TcbPtr} {c : Comp} {b : Bool}
    (hr : s.running = some r) (hc : c.AtWindow) : MaskInv (s.swapToScheduler r c b) where
  main := h.main
  running := h.running
  masked pc hpc hw := by
    obtain rfl := Comp.sched.inj hpc
    exact absurd hw (by simp [SchedPc.window])
  handler c hc := absurd hc (by simp [State.swapToScheduler])
  saved t ht := by
    refine .inl ?_
    rw [State.swapToScheduler]
    dsimp only
    by_cases htr : t = r
    · rw [htr, update_self]
      exact hc
    · rw [update_of_ne htr]
      refine (h.saved t ht).resolve_right fun ⟨htm, hrun, _⟩ => htr ?_
      exact htm.trans (Option.some.inj (hrun.symm.trans hr))

theorem MaskInv.goto (h : MaskInv s) {pc pc' : SchedPc} (hcpu : s.cpu = .sched pc)
    {running : Option TcbPtr} (hrun : ∀ r, running = some r → s.known r = true)
    {stateOf : TcbPtr → ThreadState} {masked : Bool} (hmask : pc'.window = false → masked = true) :
    MaskInv
      { s with cpu := .sched pc', running := running, stateOf := stateOf, masked := masked } where
  main := h.main
  running := hrun
  masked pc'' hpc hw := by
    obtain rfl := Comp.sched.inj hpc
    exact hmask hw
  handler c hc := absurd hc (by simp)
  saved t ht := .inl ((h.saved t ht).resolve_right fun ⟨_, _, n, hn⟩ =>
    absurd (hcpu.symm.trans hn) (by simp))

theorem MaskInv.setcontext (h : MaskInv s) {pc : SchedPc} (hcpu : s.cpu = .sched pc) {t : TcbPtr}
    (ht : s.known t = true) : MaskInv (s.setcontext (s.context t)) := by
  have hsaved : ∀ u, s.known u = true → (s.context u).comp.AtWindow := fun u hu =>
    (h.saved u hu).resolve_right fun ⟨_, _, n, hn⟩ => absurd (hcpu.symm.trans hn) (by simp)
  have hat := hsaved t ht
  refine ⟨h.main, h.running, fun pc' hpc hw => ?_, fun c hc => ?_, fun u hu => .inl (hsaved u hu)⟩
  · rw [State.setcontext] at hpc
    dsimp only at hpc
    rw [hpc, Comp.AtWindow, hw] at hat
    exact absurd hat (by simp)
  · rw [State.setcontext] at hc
    dsimp only at hc
    rw [hc] at hat
    exact hat

theorem MaskInv.sched (h : MaskInv s) {pc : SchedPc} (hcpu : s.cpu = .sched pc) {choice : Choice}
    (hs : s.schedStep policy choice pc = some s') : MaskInv s' := by
  obtain ⟨pc', running, stateOf, masked, rfl, hrun, hmask⟩ | ⟨t, rfl, ⟨rfl, hr⟩ | ⟨rfl, rfl⟩⟩ :=
    State.schedStep_cases hs
  · refine h.goto hcpu (fun r hr => (hrun r hr).elim (h.running r) id) fun hw => ?_
    obtain hm | ⟨hpc, hm⟩ := hmask hw
    · exact hm
    · exact hm.trans (h.masked pc hcpu hpc)
  · exact h.setcontext hcpu (h.running t hr)
  · exact h.setcontext hcpu h.main

/-- The CPU can be stored unmasked only at a window. -/
theorem MaskInv.cpu_atWindow (h : MaskInv s) (hm : s.masked = false) : s.cpu.AtWindow := by
  cases hc : s.cpu with
  | code t n => trivial
  | handler c => exact h.handler c hc
  | sched pc =>
    rw [Comp.AtWindow]
    by_contra hw
    rw [h.masked pc hc (Bool.eq_false_iff.mpr hw)] at hm
    exact absurd hm (by simp)

theorem MaskInv.step (h : MaskInv s) {l : Label} (hs : step policy s l = some s') : MaskInv s' := by
  cases l with
  | code u st =>
    simp only [Signals.step] at hs
    split at hs
    · rename_i t n hc
      obtain rfl := Option.some.inj hs
      refine ⟨h.main, h.running, fun pc hpc => absurd hpc (by simp), fun c hc => absurd hc (by simp),
        -- the saved contexts do not change
        fun x hx => (h.saved x hx).imp id fun ⟨hxm, hrun, m, hm⟩ => ⟨hxm, hrun, n + 1, ?_⟩⟩
      obtain ⟨rfl, -⟩ := Comp.code.inj (hc.symm.trans hm)
      rfl
    · exact absurd hs (by simp)
  | swap =>
    simp only [Signals.step] at hs
    split at hs
    · rename_i t n r hc hr
      obtain rfl := Option.some.inj hs
      exact h.swapToScheduler hr trivial
    · exact absurd hs (by simp)
  | create u =>
    simp only [Signals.step] at hs
    split at hs
    · rename_i t n hc
      split at hs
      · rename_i hu
        obtain rfl := Option.some.inj hs
        have hknown : ∀ x, s.known x = true → update s.known u true x = true := by
          intro x hx
          rw [update_apply]
          split
          · rfl
          · exact hx
        refine ⟨hknown _ h.main, fun r hr => hknown r (h.running r hr),
          fun pc hpc => absurd (hc.symm.trans hpc) (by simp),
          fun c hc' => absurd (hc.symm.trans hc') (by simp), fun x hx => ?_⟩
        dsimp only at hx ⊢
        -- a new thread starts unmasked, outside the scheduler
        by_cases hxu : x = u
        · rw [hxu, update_self]
          exact .inl trivial
        · rw [update_of_ne hxu] at hx ⊢
          exact h.saved x hx
      · exact absurd hs (by simp)
    · exact absurd hs (by simp)
  | sched choice =>
    simp only [Signals.step] at hs
    split at hs
    · rename_i pc hc
      exact h.sched hc hs
    · exact absurd hs (by simp)
  | handlerReturn =>
    simp only [Signals.step] at hs
    split at hs
    · rename_i c hc
      obtain rfl := Option.some.inj hs
      have hat := h.handler c hc
      refine ⟨h.main, h.running, fun pc hpc hw => ?_, fun c' hc' => ?_, fun x hx =>
        -- no thread was inside a call while the handler ran
        .inl ((h.saved x hx).resolve_right fun ⟨_, _, n, hn⟩ =>
          absurd (hc.symm.trans hn) (by simp))⟩
      · dsimp only at hpc
        rw [hpc, Comp.AtWindow, hw] at hat
        exact absurd hat (by simp)
      · dsimp only at hc'
        rw [hc'] at hat
        exact hat
    · exact absurd hs (by simp)
  | tick =>
    simp only [Signals.step] at hs
    split at hs
    · exact absurd hs (by simp)
    · rename_i hm
      split at hs
      · rw [← Option.some.inj hs]
        exact h
      -- the tick came unmasked, so what it saves is at a window
      · rename_i r hr
        obtain rfl := Option.some.inj hs
        exact h.swapToScheduler hr (h.cpu_atWindow (Bool.eq_false_iff.mpr hm))
end

/-- **The signal is masked in the loop** of the scheduler, in every run: no tick comes between
two of its iterations. -/
theorem masked_in_loop (policy : Policy) {ls : List Label} {s : State}
    (hr : Run (machine policy) ls s) (hloop : s.cpu = .sched .loop) :
    s.masked = true ∧ step policy s .tick = none := by
  have h : MaskInv s := hr.invariant (I := MaskInv) (fun s h => IsInit.maskInv h)
    fun s l s' hI hs => hI.step hs
  have hm := h.masked .loop hloop rfl
  exact ⟨hm, by rw [step, if_pos hm]⟩

end ThreadWorker.Signals
