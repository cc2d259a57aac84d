import Cs416.Threads.Statements

/-!
# Threads that run in their own contexts

As long as the scheduler only dispatches ready threads, and never falls back to the main
thread, `running_tcb` is the thread whose code is on the CPU and every context holds its own
thread's computation (`OwnContexts`). Such a run is easier to reason about: a step is a
statement or a call of one thread, a tick that moves nobody, or a dispatch (`Moved`), and the
invariants of the library are proved against these cases.
-/

open Function Lts

namespace ThreadWorker

/-- The scheduler dispatches ready threads only, and does not fall back to the main thread. -/
def DispatchesReady (s : State) : Label → Prop
  | .dispatch t => (s.shared.tcb t).state = .ready
  | .toMain => False
  | _ => True

instance (s : State) : (l : Label) → Decidable (DispatchesReady s l)
  | .dispatch t => inferInstanceAs (Decidable ((s.shared.tcb t).state = .ready))
  | .toMain => .isFalse id
  | .stmt | .call _ | .create _ _ | .tick => .isTrue trivial

/-- Every computation is its own thread's, and `running_tcb` is the thread on the CPU. -/
structure OwnContexts (s : State) : Prop where
  who : ∀ t, (s.context t).who = t
  yields : ∀ t c, (s.context t).pc = .yieldSwap c → c = t
  running : ∀ c, s.cpu = some c → s.running = some c.who
  yielding : ∀ c x, s.cpu = some c → c.pc = .yieldSwap x → x = c.who
  /-- A thread on the CPU that has ended was put there from its context. -/
  ended : ∀ c, s.cpu = some c → c.pc = .exited → s.context c.who = c

/-- What a step does when threads run in their own contexts. -/
inductive Moved (s s' : State) : Label → Prop
  | stmt (t : TcbPtr) (sh : Shared) (next : Next) :
      s.onCpu = some t →
      exec s.mainTcb t s.shared (some t) (s.pcOf t) = some (sh, next) →
      s'.shared = (if next.switches then sh.preempt t else sh) →
      s'.pcOf = update s.pcOf t next.pc →
      s'.inside = observe ⟨t, s.pcOf t⟩ s.inside →
      s'.onCpu = (if next.switches then none else some t) → Moved s s' .stmt
  | call (t : TcbPtr) (k : Call) :
      s.onCpu = some t → s.pcOf t = .user → s'.shared = s.shared →
      s'.pcOf = update s.pcOf t k.entry → s'.inside = s.inside →
      s'.onCpu = some t → Moved s s' (.call k)
  | create (t u : TcbPtr) (fresh : Tcb) :
      s.onCpu = some t → s.pcOf t = .user → u ≠ t →
      s.shared.allocated u = false → s.pcOf u = .exited →
      s'.shared = s.shared.create u fresh → s'.pcOf = update s.pcOf u .user →
      s'.inside = update s.inside u (fun _ => false) → s'.onCpu = some t →
      Moved s s' (.create u fresh)
  | tick (t : TcbPtr) :
      s.onCpu = some t → s'.shared = s.shared.preempt t → s'.pcOf = s.pcOf →
      s'.inside = s.inside → s'.onCpu = none → Moved s s' .tick
  | dispatch (t : TcbPtr) (q : List TcbPtr) :
      s.onCpu = none → (s.shared.tcb t).state = .ready →
      s'.shared = { s.shared.setState t .running with runQueue := q } →
      s'.pcOf = s.pcOf → s'.inside = s.inside → s'.onCpu = some t →
      Moved s s' (.dispatch t)

theorem State.schedule_cpu (s : State) : s.schedule.cpu = none := by
  unfold State.schedule
  split <;> rfl

theorem State.schedule_context (s : State) : s.schedule.context = s.context := by
  unfold State.schedule
  split <;> rfl

theorem State.schedule_inside (s : State) : s.schedule.inside = s.inside := by
  unfold State.schedule
  split <;> rfl

theorem State.schedule_mainTcb (s : State) : s.schedule.mainTcb = s.mainTcb := by
  unfold State.schedule
  split <;> rfl

theorem State.schedule_shared {s : State} {r : TcbPtr} (h : s.running = some r) :
    s.schedule.shared = s.shared.preempt r := by
  unfold State.schedule
  rw [h]

theorem State.pcOf_of_idle {s : State} (h : s.cpu = none) (t : TcbPtr) :
    s.pcOf t = (s.context t).pc := by
  rw [State.pcOf, h]

theorem State.pcOf_self {s : State} {c : Code} (h : s.cpu = some c) : s.pcOf c.who = c.pc := by
  rw [State.pcOf, h]
  exact if_pos rfl

theorem State.pcOf_other {s : State} {c : Code} (h : s.cpu = some c) {t : TcbPtr}
    (ht : t ≠ c.who) : s.pcOf t = (s.context t).pc := by
  rw [State.pcOf, h]
  exact if_neg (Ne.symm ht)

section
variable {s s' : State}

theorem step_stmt (hs : step s .stmt = some s') : ∃ c sh next, s.cpu = some c ∧
    exec s.mainTcb c.who s.shared s.running c.pc = some (sh, next) ∧
    s' = State.proceed { s with shared := sh, inside := observe c s.inside } c.who next := by
  rw [step] at hs
  split at hs
  · exact absurd hs (by simp)
  · rename_i c hc
    split at hs
    · exact absurd hs (by simp)
    · rename_i sh next he
      exact ⟨c, sh, next, hc, he, (Option.some.inj hs).symm⟩

theorem step_call {k : Call} (hs : step s (.call k) = some s') :
    ∃ t, s.cpu = some ⟨t, .user⟩ ∧ s' = { s with cpu := some ⟨t, k.entry⟩ } := by
  rw [step] at hs
  split at hs
  · rename_i t hc
    exact ⟨t, hc, (Option.some.inj hs).symm⟩
  · exact absurd hs (by simp)

theorem step_create {u : TcbPtr} {fresh : Tcb} (hs : step s (.create u fresh) = some s') :
    ∃ t, s.cpu = some ⟨t, .user⟩ ∧ s.shared.allocated u = false ∧ s.pcOf u = .exited ∧
      s' = s.create u fresh := by
  rw [step] at hs
  split at hs
  · rename_i t hc
    split at hs
    · rename_i hfree
      exact ⟨t, hc, hfree.1, hfree.2, (Option.some.inj hs).symm⟩
    · exact absurd hs (by simp)
  · exact absurd hs (by simp)

theorem step_tick {r : TcbPtr} (hr : s.running = some r) (hs : step s .tick = some s') :
    ∃ c, s.cpu = some c ∧ s' = State.schedule { s with context := update s.context r c } := by
  rw [step] at hs
  split at hs
  · exact absurd hs (by simp)
  · rename_i c hc
    split at hs
    · rename_i hr'
      exact absurd (hr.symm.trans hr') (by simp)
    · rename_i r' hr'
      obtain rfl := Option.some.inj (hr.symm.trans hr')
      exact ⟨c, hc, (Option.some.inj hs).symm⟩

theorem step_dispatch {t : TcbPtr} (hs : step s (.dispatch t) = some s') :
    s.cpu = none ∧ s' = { s with
      shared := { s.shared.setState t .running with runQueue := s.shared.runQueue.erase t }
      running := some t
      cpu := some (s.context t) } := by
  rw [step] at hs
  split at hs
  · exact absurd hs (by simp)
  · rename_i hc
    exact ⟨hc, (Option.some.inj hs).symm⟩

end

namespace OwnContexts

variable {s s' : State}

/-- The statements of a thread keep to its own context, and none but the last `swapcontext` of
`worker_exit` leads to the end. -/
theorem exec_next {mainTcb t : TcbPtr} {sh sh' : Shared} {p : Pc} {next : Next}
    (h : exec mainTcb t sh (some t) p = some (sh', next))
    (hy : ∀ x, p = .yieldSwap x → x = t) :
    (∀ dst q, next = .swap dst q → dst = t ∧ ∀ x, q ≠ .yieldSwap x) ∧
      (∀ x, next = .goto (.yieldSwap x) → x = t) ∧ next ≠ .goto .exited ∧
      (next = .leave → p = .exited) := by
  cases p <;> simp only [exec, Option.bind_some, Option.bind_eq_some_iff] at h <;>
    first
    | simp only [reduceCtorEq] at h
    | (split at h <;> simp_all <;> (obtain ⟨rfl, rfl⟩ := h; simp))
    | (obtain ⟨_, _, h⟩ := h; simp_all; obtain ⟨rfl, rfl⟩ := h; simp)
    | (simp_all; obtain ⟨rfl, rfl⟩ := h; simp_all)

/-- `running_tcb` is the thread on the CPU. -/
theorem running_of_onCpu (h : OwnContexts s) {t : TcbPtr} (ht : s.onCpu = some t) :
    ∃ c, s.cpu = some c ∧ c.who = t ∧ s.running = some t ∧ s.pcOf t = c.pc := by
  obtain ⟨c, hc, rfl⟩ := Option.map_eq_some_iff.mp ht
  exact ⟨c, hc, rfl, h.running c hc, State.pcOf_self hc⟩

/-- A thread leaves the CPU for the scheduler with its context saved. -/
theorem saved (h : OwnContexts s) {c : Code} (hc : s.cpu = some c) {p : Pc}
    (hp : ∀ x, p = .yieldSwap x → x = c.who) (sh : Shared)
    (inside : TcbPtr → MutexPtr → Bool) :
    let u : State := { s with
      shared := sh, inside := inside, context := update s.context c.who ⟨c.who, p⟩ }
    OwnContexts u.schedule ∧ u.schedule.pcOf = update s.pcOf c.who p ∧
      u.schedule.shared = sh.preempt c.who ∧ u.schedule.inside = inside ∧
      u.schedule.onCpu = none ∧ u.schedule.mainTcb = s.mainTcb := by
  intro u
  have hcpu : u.schedule.cpu = none := u.schedule_cpu
  have hctx : u.schedule.context = update s.context c.who ⟨c.who, p⟩ := u.schedule_context
  refine ⟨⟨fun t => ?_, fun t x hx => ?_, ?_, ?_, ?_⟩, ?_, ?_, u.schedule_inside, ?_,
    u.schedule_mainTcb⟩
  -- the context saved last is that of the thread that left
  · rw [hctx]
    by_cases ht : t = c.who
    · rw [ht, update_self]
    · rw [update_of_ne ht]
      exact h.who t
  · rw [hctx] at hx
    by_cases ht : t = c.who
    · rw [ht, update_self] at hx
      rw [ht]
      exact hp x hx
    · rw [update_of_ne ht] at hx
      exact h.yields t x hx
  -- nobody is on the CPU, so nothing has to hold of the code there
  · intro c' hc'
    rw [hcpu] at hc'
    exact absurd hc' (by simp)
  · intro c' x hc'
    rw [hcpu] at hc'
    exact absurd hc' (by simp)
  · intro c' hc'
    rw [hcpu] at hc'
    exact absurd hc' (by simp)
  -- each thread is where its context says, the one that left at `p`
  · funext t
    rw [State.pcOf_of_idle hcpu, hctx]
    by_cases ht : t = c.who
    · rw [ht, update_self, update_self]
    · rw [update_of_ne ht, update_of_ne ht, State.pcOf_other hc ht]
  · exact State.schedule_shared (h.running c hc)
  · rw [State.onCpu, hcpu]
    rfl

/-- A thread goes on in its own code. -/
theorem goes_on (h : OwnContexts s) {c : Code} (hc : s.cpu = some c) {p : Pc}
    (hy : ∀ x, p = .yieldSwap x → x = c.who) (he : p ≠ .exited) (sh : Shared)
    (inside : TcbPtr → MutexPtr → Bool) :
    let u : State := { s with shared := sh, inside := inside, cpu := some ⟨c.who, p⟩ }
    OwnContexts u ∧ u.pcOf = update s.pcOf c.who p := by
  intro u
  refine ⟨⟨h.who, h.yields, ?_, ?_, ?_⟩, ?_⟩
  · intro c' hc'
    rw [← Option.some.inj hc']
    exact h.running c hc
  · intro c' x hc' hx
    rw [← Option.some.inj hc'] at hx ⊢
    exact hy x hx
  · intro c' hc' hx
    rw [← Option.some.inj hc'] at hx
    exact absurd hx he
  · funext t
    by_cases ht : t = c.who
    · rw [ht, update_self]
      exact State.pcOf_self (c := ⟨c.who, p⟩) rfl
    · rw [update_of_ne ht, State.pcOf_other hc ht]
      exact State.pcOf_other (c := ⟨c.who, p⟩) rfl ht

theorem stmt_step (h : OwnContexts s) (hs : ThreadWorker.step s .stmt = some s') :
    OwnContexts s' ∧ Moved s s' .stmt ∧ s'.mainTcb = s.mainTcb := by
  obtain ⟨c, sh, next, hc, he, rfl⟩ := step_stmt hs
  rw [h.running c hc] at he
  have hon : s.onCpu = some c.who := by rw [State.onCpu, hc]; rfl
  have hpcc : s.pcOf c.who = c.pc := State.pcOf_self hc
  obtain ⟨hswap, hyield, hexit, hleave⟩ := exec_next he fun x hx => h.yielding c x hc hx
  have hc' : (⟨c.who, s.pcOf c.who⟩ : Code) = c := by rw [hpcc]
  rw [← hpcc] at he
  cases next with
  | goto p =>
    obtain ⟨hown, hpc⟩ := h.goes_on hc (p := p) (fun x hx => hyield x (by rw [hx]))
      (fun hx => hexit (by rw [hx])) sh (observe c s.inside)
    exact ⟨hown, .stmt c.who sh _ hon he rfl hpc (by rw [hc']; rfl) rfl, rfl⟩
  | ret r =>
    obtain ⟨hown, hpc⟩ := h.goes_on hc (p := .user) (fun x hx => by simp at hx)
      (by simp) sh (observe c s.inside)
    exact ⟨hown, .stmt c.who sh _ hon he rfl hpc (by rw [hc']; rfl) rfl, rfl⟩
  | swap dst p =>
    obtain ⟨rfl, hp⟩ := hswap dst p rfl
    obtain ⟨hown, hpc, hsh, hin, hcpu, hmain⟩ :=
      h.saved hc (p := p) (fun x hx => absurd hx (hp x)) sh (observe c s.inside)
    exact ⟨hown, .stmt c.who sh _ hon he hsh hpc (by rw [hc']; exact hin) hcpu, hmain⟩
  | leave =>
    -- the context that stays behind is the one the thread came from
    have hctx : update s.context c.who ⟨c.who, .exited⟩ = s.context := by
      have hcc := h.ended c hc (hleave rfl)
      rw [show (⟨c.who, .exited⟩ : Code) = s.context c.who by rw [hcc, ← hleave rfl],
        update_eq_self]
    obtain ⟨hown, hpc, hsh, hin, hcpu, hmain⟩ :=
      h.saved hc (p := .exited) (fun x hx => by simp at hx) sh (observe c s.inside)
    rw [hctx] at hown hpc hsh hin hcpu hmain
    exact ⟨hown, .stmt c.who sh _ hon he hsh hpc (by rw [hc']; exact hin) hcpu, hmain⟩

theorem call_step (h : OwnContexts s) {k : Call}
    (hs : ThreadWorker.step s (.call k) = some s') :
    OwnContexts s' ∧ Moved s s' (.call k) ∧ s'.mainTcb = s.mainTcb := by
  obtain ⟨t, hc, rfl⟩ := step_call hs
  have hy : ∀ x, k.entry = .yieldSwap x → x = t := by
    intro x hx
    cases k <;> simp [Call.entry] at hx
  have he : k.entry ≠ .exited := by cases k <;> simp [Call.entry]
  obtain ⟨hown, hpc⟩ := h.goes_on hc hy he s.shared s.inside
  exact ⟨hown, .call t k (by rw [State.onCpu, hc]; rfl) (State.pcOf_self hc) rfl hpc rfl rfl, rfl⟩

theorem create_step (h : OwnContexts s) {u : TcbPtr} {fresh : Tcb}
    (hs : ThreadWorker.step s (.create u fresh) = some s') :
    OwnContexts s' ∧ Moved s s' (.create u fresh) ∧ s'.mainTcb = s.mainTcb := by
  obtain ⟨t, hc, hfree, hexited, rfl⟩ := step_create hs
  have hcpu : (s.create u fresh).cpu = some ⟨t, .user⟩ := hc
  have hctx : (s.create u fresh).context = update s.context u ⟨u, .user⟩ := rfl
  -- the new thread is another one than the caller, which has not exited
  have hut : u ≠ t := by
    rintro rfl
    rw [State.pcOf_self hc] at hexited
    exact absurd hexited (by simp)
  have hpc : (s.create u fresh).pcOf = update s.pcOf u .user := by
    funext x
    by_cases hx : x = u
    · rw [hx, update_self, State.pcOf_other hcpu hut, hctx, update_self]
    · rw [update_of_ne hx]
      by_cases hxt : x = t
      · rw [hxt, State.pcOf_self hcpu, State.pcOf_self hc]
      · rw [State.pcOf_other hcpu hxt, State.pcOf_other hc hxt, hctx, update_of_ne hx]
  refine ⟨⟨fun x => ?_, fun x c hx => ?_, h.running, h.yielding, fun c hc' he => ?_⟩,
    .create t u fresh (by rw [State.onCpu, hc]; rfl) (State.pcOf_self hc) hut hfree
      hexited rfl hpc rfl (by rw [State.onCpu, hcpu]; rfl), rfl⟩
  -- only the context of the new thread is new, and it is at user code
  · rw [hctx]
    by_cases hx : x = u
    · rw [hx, update_self]
    · rw [update_of_ne hx, h.who x]
  · rw [hctx] at hx
    by_cases hxu : x = u
    · rw [hxu, update_self] at hx
      exact absurd hx (by simp)
    · rw [update_of_ne hxu] at hx
      exact h.yields x c hx
  · rw [hcpu] at hc'
    rw [← Option.some.inj hc'] at he
    exact absurd he (by simp)

theorem tick_step (h : OwnContexts s) (hs : ThreadWorker.step s .tick = some s') :
    OwnContexts s' ∧ Moved s s' .tick ∧ s'.mainTcb = s.mainTcb := by
  have hcpu : ∃ c, s.cpu = some c := by
    cases hc : s.cpu with
    | none => simp [ThreadWorker.step, hc] at hs
    | some c => exact ⟨c, rfl⟩
  obtain ⟨c, hc⟩ := hcpu
  obtain ⟨c', hc', rfl⟩ := step_tick (h.running c hc) hs
  obtain rfl := Option.some.inj (hc.symm.trans hc')
  obtain ⟨hown, hpc, hsh, hin, hcpu, hmain⟩ :=
    h.saved hc (p := c.pc) (fun x hx => h.yielding c x hc hx) s.shared s.inside
  refine ⟨hown, .tick c.who (by rw [State.onCpu, hc]; rfl) hsh (hpc.trans ?_) hin hcpu, hmain⟩
  rw [← State.pcOf_self hc, update_eq_self]

theorem dispatch_step (h : OwnContexts s) {t : TcbPtr}
    (hready : (s.shared.tcb t).state = .ready)
    (hs : ThreadWorker.step s (.dispatch t) = some s') :
    OwnContexts s' ∧ Moved s s' (.dispatch t) ∧ s'.mainTcb = s.mainTcb := by
  obtain ⟨hc, rfl⟩ := step_dispatch hs
  refine ⟨⟨h.who, h.yields, ?_, ?_, ?_⟩, .dispatch t _ (by rw [State.onCpu, hc]; rfl) hready rfl
    ?_ rfl ?_, rfl⟩
  · intro c hc'
    rw [← Option.some.inj hc', h.who t]
  · intro c x hc' hx
    rw [← Option.some.inj hc'] at hx ⊢
    rw [h.who t]
    exact h.yields t x hx
  · intro c hc' _
    rw [← Option.some.inj hc', h.who t]
  · funext x
    rw [State.pcOf_of_idle hc, State.pcOf]
    dsimp only
    rw [h.who t]
    split
    · rename_i hx
      rw [hx]
    · rfl
  · rw [State.onCpu, Option.map_some, h.who t]

/-- A step whose dispatches take ready threads keeps the contexts apart. -/
theorem step (h : OwnContexts s) {l : Label} (hs : ThreadWorker.step s l = some s')
    (hl : DispatchesReady s l) : OwnContexts s' ∧ Moved s s' l ∧ s'.mainTcb = s.mainTcb := by
  cases l with
  | stmt => exact h.stmt_step hs
  | call k => exact h.call_step hs
  | create u fresh => exact h.create_step hs
  | tick => exact h.tick_step hs
  | dispatch t => exact h.dispatch_step hl hs
  | toMain => exact absurd hl id

end OwnContexts

theorem IsInit.ownContexts {s : State} (h : IsInit s) : OwnContexts s := by
  have hctx : ∀ t, s.context t = ⟨t, .user⟩ ∨ s.context t = ⟨t, .exited⟩ := fun t => by
    by_cases ht : t = s.mainTcb
    · rw [ht]
      exact .inl h.mainContext
    · exact .inr (h.others t ht).1
  refine ⟨fun t => ?_, fun t c hc => ?_, fun c hc => ?_, fun c x hc hx => ?_, fun c hc he => ?_⟩
  · rcases hctx t with ht | ht <;> rw [ht]
  · rcases hctx t with ht | ht <;> rw [ht] at hc <;> exact absurd hc (by simp)
  · rw [h.cpu] at hc
    rw [h.running, ← Option.some.inj hc]
  · rw [h.cpu] at hc
    rw [← Option.some.inj hc] at hx
    exact absurd hx (by simp)
  · rw [h.cpu] at hc
    rw [← Option.some.inj hc] at he
    exact absurd he (by simp)

end ThreadWorker
