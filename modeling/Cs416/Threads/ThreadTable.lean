import Cs416.Threads.Charges

/-!
# Thread creation and the thread table

`worker_create` enters a thread into `thread_table`, where `find_tcb_by_id` looks for it, and
`worker_join` takes it out. Three steps break this off:

* `worker_create` with all `MAX_THREADS` slots taken does not look at what `add_thread_to_table`
  returns, and reports success;
* `worker_create` has counted the thread when the `malloc` for its stack fails;
* a `worker_join` that goes on although its thread was freed before removes whichever thread
  holds the block by then.

In the runs without such a step (`TableStep`) a created thread is found until it is joined, and
a creation that fails leaves everything as it was (`creation_and_table_agree`).
-/

open Function Lts

namespace ThreadWorker

/-! ### The table as a map -/

section

variable {table : Table} {idOf idOf' : TcbPtr → ℕ} {i id : ℕ} {p u : TcbPtr}

theorem findTcbById_congr (h : ∀ q, some q ∈ table → idOf' q = idOf q) :
    findTcbById table idOf' i = findTcbById table idOf i := by
  induction table with
  | nil => rfl
  | cons slot rest ih =>
    have hrest := ih fun q hq => h q (List.mem_cons_of_mem _ hq)
    cases slot with
    | none => exact hrest
    | some q => rw [findTcbById, findTcbById, h q List.mem_cons_self, hrest]

/-- A thread with a slot is found, and the others are found as before. -/
theorem findTcbById_add (hfree : none ∈ table)
    (hsame : ∀ q, some q ∈ table → idOf' q = idOf q)
    (hnew : ∀ q, some q ∈ table → idOf q ≠ idOf' u) :
    findTcbById (addThreadToTable table u).1 idOf' i
      = if i = idOf' u then some u else findTcbById table idOf i := by
  induction table with
  | nil => exact absurd hfree (by simp)
  | cons slot rest ih =>
    cases slot with
    | none =>
      have hrest : findTcbById rest idOf' i = findTcbById rest idOf i :=
        findTcbById_congr fun q hq => hsame q (List.mem_cons_of_mem _ hq)
      rw [addThreadToTable, findTcbById, findTcbById, hrest]
      exact if_congr eq_comm rfl rfl
    | some q =>
      have hq := hsame q List.mem_cons_self
      have hne := hnew q List.mem_cons_self
      rw [addThreadToTable, findTcbById, findTcbById, hq,
        ih ((List.mem_cons.mp hfree).resolve_left (by simp))
          (fun q hq => hsame q (List.mem_cons_of_mem _ hq))
          (fun q hq => hnew q (List.mem_cons_of_mem _ hq))]
      by_cases hi : idOf q = i
      · rw [if_pos hi, if_pos hi, if_neg (by rw [← hi]; exact hne)]
      · rw [if_neg hi, if_neg hi]

/-- Without a free slot nothing is entered. -/
theorem addThreadToTable_full (hfull : none ∉ table) : addThreadToTable table u = (table, false) := by
  induction table with
  | nil => rfl
  | cons slot rest ih =>
    cases slot with
    | none => exact absurd List.mem_cons_self hfull
    | some q => rw [addThreadToTable, ih fun h => hfull (List.mem_cons_of_mem _ h)]

/-- A removal leaves the other threads where they are. -/
theorem findTcbById_remove (hi : i ≠ id) :
    findTcbById (removeThreadFromTable table idOf id).1 idOf i = findTcbById table idOf i := by
  induction table with
  | nil => rfl
  | cons slot rest ih =>
    cases slot with
    | none => exact ih
    | some q =>
      rw [removeThreadFromTable]
      by_cases hq : idOf q = id
      · rw [if_pos hq, findTcbById, findTcbById, if_neg (by rw [hq]; exact hi.symm)]
      · rw [if_neg hq]
        simp only [findTcbById, ih]

end

namespace Library

/-! ### The steps and the table -/

/-- The threads are the same, as far as the table is concerned. -/
structure SameThreads (s s' : State) : Prop where
  table : s'.table = s.table
  allocated : s'.allocated = s.allocated
  nextThreadId : s'.nextThreadId = s.nextThreadId
  id : s'.idOf = s.idOf

/-- A thread is created in the block `u`. -/
structure CreatesIn (s s' : State) (u : TcbPtr) : Prop where
  free : s.allocated u = false
  table : s'.table = (addThreadToTable s.table u).1
  allocated : s'.allocated = update s.allocated u true
  nextThreadId : s'.nextThreadId = s.nextThreadId + 1
  id : s'.idOf = update s.idOf u s.nextThreadId

/-- A thread is freed. -/
structure Frees (s s' : State) (x : TcbPtr) : Prop where
  table : s'.table = (removeThreadFromTable s.table s.idOf (s.idOf x)).1
  allocated : s'.allocated = update s.allocated x false
  nextThreadId : s'.nextThreadId = s.nextThreadId
  id : s'.idOf = s.idOf

/-- What a step does to the table, by its reply. -/
inductive TableChange (s : State) (op : Op) (s' : State) : After → Prop
  | created {u fresh} (hop : op = .create u fresh) (h : CreatesIn s s' u) :
      TableChange s op s' (.ret (.created s.nextThreadId))
  | joined {x thread v} (hfound : findTcbById s.table s.idOf thread = some x ∨
      op = .resume ∧ s.cpu.point = .joining thread x) (h : Frees s s' x) :
      TableChange s op s' (.ret (.joined thread v))
  /-- A creation that fails behind its counters. -/
  | skipped (hop : op = .createFails true) (htable : s'.table = s.table)
      (halloc : s'.allocated = s.allocated) (hnext : s'.nextThreadId = s.nextThreadId + 1)
      (hid : s'.idOf = s.idOf) : TableChange s op s' (.ret (.code (-1)))
  | same {after} (h : SameThreads s s') (hc : ∀ t, after ≠ .ret (.created t))
      (hj : ∀ t v, after ≠ .ret (.joined t v)) : TableChange s op s' after

/-- A step that keeps the creations and the table in agreement. -/
def TableStep (s : State) : Op → Prop
  | .create _ _ => none ∈ s.table
  | .createFails stack => stack = false
  | .resume =>
    match s.cpu.point with
    | .joining thread x => findTcbById s.table s.idOf thread = some x
    | _ => True
  | _ => True

section

variable {pol : Policy} {Fresh : Tcb → Prop} {s s' s₁ s₂ : State} {op : Op} {after : After}
  {entry now : ℤ} {t u r x : TcbPtr} {ls : List Label} {m : MutexPtr}

theorem SameThreads.refl (s : State) : SameThreads s s := ⟨rfl, rfl, rfl, rfl⟩

theorem SameThreads.trans (h₁ : SameThreads s s₁) (h₂ : SameThreads s₁ s₂) : SameThreads s s₂ :=
  ⟨h₂.table.trans h₁.table, h₂.allocated.trans h₁.allocated,
    h₂.nextThreadId.trans h₁.nextThreadId, h₂.id.trans h₁.id⟩

theorem SameThreads.of_keeps {st : TcbPtr → ThreadState} (h : Keeps s s' st) : SameThreads s s' :=
  ⟨h.table, h.allocated, h.nextThreadId, funext fun t => (h.same t).id⟩

/-- Storing a control block under its `id`. -/
theorem sameThreads_setTcb (s : State) (r : TcbPtr) (b : Tcb) (hb : b.id = s.idOf r) :
    SameThreads s (s.setTcb r b) := by
  refine ⟨rfl, rfl, rfl, funext fun t => ?_⟩
  simp only [State.idOf, State.setTcb, update_apply]
  split
  · next htr => rw [htr, hb, State.idOf]
  · rfl

theorem sameThreads_setState (s : State) (r : TcbPtr) (st : ThreadState) :
    SameThreads s (s.setState r st) := sameThreads_setTcb s r _ rfl

theorem sameThreads_addToScheduler (h : addToScheduler pol s t = some s₁) : SameThreads s s₁ :=
  .of_keeps (addToScheduler_keeps h).1

/-- The scheduler leaves the table alone. -/
theorem sameThreads_schedule {next : Option TcbPtr}
    (h : schedule pol s entry now = some (s', next)) : SameThreads s s' :=
  .of_keeps (schedule_keeps h).1

theorem sameThreads_lockLoop (he : lockLoop s m = some (s₁, after)) :
    SameThreads s s₁ ∧ (∀ t, after ≠ .ret (.created t)) ∧ ∀ t v, after ≠ .ret (.joined t v) := by
  rw [lockLoop] at he
  dsimp only at he
  split at he
  · split at he
    · exact absurd he (by simp)
    · next r _ =>
      obtain ⟨rfl, rfl⟩ := Prod.mk.inj (Option.some.inj he)
      refine ⟨?_, by simp, by simp⟩
      split
      · have h := sameThreads_setState s r .blocked
        exact ⟨h.table, h.allocated, h.nextThreadId, h.id⟩
      · exact ⟨rfl, rfl, rfl, rfl⟩
  · obtain ⟨rfl, rfl⟩ := Prod.mk.inj (Option.some.inj he)
    exact ⟨⟨rfl, rfl, rfl, rfl⟩, by simp, by simp⟩

/-- `cleanup_thread`, when the threads have stayed the same up to it. -/
theorem SameThreads.frees (h : SameThreads s s₁) (x : TcbPtr) : Frees s (s₁.cleanupThread x) x where
  table := by
    rw [State.cleanupThread, h.table, h.id]
    exact congrArg (fun id => (removeThreadFromTable s.table s.idOf id).1) (congrFun h.id x)
  allocated := by rw [State.cleanupThread, h.allocated]
  nextThreadId := h.nextThreadId
  id := h.id

theorem exit_sameThreads {v : Value} (he : exit pol s v = some (s₁, after)) :
    SameThreads s s₁ ∧ after = .enter (.exited v) := by
  rw [exit] at he
  split at he
  · exact absurd he (by simp)
  next r _ =>
  have hends : SameThreads s (s.setTcb r { s.tcb r with state := .terminated, retval := v }) :=
    sameThreads_setTcb s r _ rfl
  dsimp only at he
  generalize s.setTcb r { s.tcb r with state := .terminated, retval := v } = s₀ at *
  split at he
  · obtain ⟨rfl, rfl⟩ := Prod.mk.inj (Option.some.inj he)
    exact ⟨⟨hends.table, hends.allocated, hends.nextThreadId, hends.id⟩, rfl⟩
  · next w _ =>
    obtain ⟨s₂, hadd, heq⟩ := Option.map_eq_some_iff.mp he
    obtain ⟨rfl, rfl⟩ := Prod.mk.inj heq
    have hcount : SameThreads s₀ { s₀ with threadCount := s₀.threadCount - 1 } :=
      ⟨rfl, rfl, rfl, rfl⟩
    have hall := (((hends.trans hcount).trans (sameThreads_setState _ w .ready)).trans
      (sameThreads_addToScheduler hadd)).trans
        (sameThreads_setTcb s₂ r { s₂.tcb r with waitingThread := none } rfl)
    exact ⟨⟨hall.table, hall.allocated, hall.nextThreadId, hall.id⟩, rfl⟩

theorem join_tableChange {thread : ℕ} (he : join s thread = some (s₁, after)) :
    TableChange s op s₁ after := by
  rw [join] at he
  split at he
  · obtain ⟨rfl, rfl⟩ := Prod.mk.inj (Option.some.inj he)
    exact .same (.refl s) (by simp) (by simp)
  next x hfound =>
  -- `running_tcb` is `NULL`: the read has no defined value
  split at he
  · exact absurd he (by simp)
  next r _ =>
  have hmark : SameThreads s (s.setTcb x { s.tcb x with joined := true }) :=
    sameThreads_setTcb s x _ rfl
  dsimp only at he
  generalize s.setTcb x { s.tcb x with joined := true } = s₀ at *
  split_ifs at he
  -- the two refused calls
  · obtain ⟨rfl, rfl⟩ := Prod.mk.inj (Option.some.inj he)
    exact .same (.refl s) (by simp) (by simp)
  · obtain ⟨rfl, rfl⟩ := Prod.mk.inj (Option.some.inj he)
    exact .same (.refl s) (by simp) (by simp)
  -- the target has ended: `worker_join` frees it and its entry
  · obtain ⟨rfl, rfl⟩ := Prod.mk.inj (Option.some.inj he)
    exact .joined (.inl hfound) (hmark.frees x)
  · obtain ⟨rfl, rfl⟩ := Prod.mk.inj (Option.some.inj he)
    have hblock := sameThreads_setState s₀ r .blocked
    have hall := (hmark.trans hblock).trans (sameThreads_setTcb (s₀.setState r .blocked) x
      { (s₀.setState r .blocked).tcb x with waitingThread := some r } rfl)
    exact .same ⟨hall.table, hall.allocated, hall.nextThreadId, hall.id⟩ (by simp) (by simp)

theorem unlock_sameThreads (he : unlock pol s m = some (s₁, after)) :
    SameThreads s s₁ ∧ ∃ c, after = .ret (.code c) := by
  rw [unlock] at he
  dsimp only at he
  split at he
  · obtain ⟨rfl, rfl⟩ := Prod.mk.inj (Option.some.inj he)
    exact ⟨.refl s, _, rfl⟩
  split at he
  · obtain ⟨rfl, rfl⟩ := Prod.mk.inj (Option.some.inj he)
    exact ⟨⟨rfl, rfl, rfl, rfl⟩, _, rfl⟩
  · next w rest _ =>
    obtain ⟨s₂, hadd, heq⟩ := Option.map_eq_some_iff.mp he
    obtain ⟨rfl, rfl⟩ := Prod.mk.inj heq
    have hfree : SameThreads s (s.setMutex m ⟨false, none, rest⟩) := ⟨rfl, rfl, rfl, rfl⟩
    exact ⟨(hfree.trans (sameThreads_setState _ w .ready)).trans (sameThreads_addToScheduler hadd),
      _, rfl⟩

theorem create_tableChange {fresh : Tcb} (he : create pol s u fresh = some (s₁, after)) :
    TableChange s (.create u fresh) s₁ after := by
  rw [create] at he
  split at he
  · next hfree =>
    obtain ⟨s₂, hadd, heq⟩ := Option.map_eq_some_iff.mp he
    obtain ⟨rfl, rfl⟩ := Prod.mk.inj heq
    obtain ⟨htable, halloc, hnext, hid⟩ := sameThreads_addToScheduler hadd
    refine .created rfl ⟨hfree.1, htable, halloc, hnext, hid.trans (funext fun t => ?_)⟩
    simp only [State.idOf, update_apply]
    split
    · rfl
    · rfl
  · exact absurd he (by simp)

/-- **What a call does to the table.** -/
theorem act_tableChange (he : act pol s op = some (s₁, after)) : TableChange s op s₁ after := by
  -- of the interrupted calls only `worker_join` frees its target
  by_cases hop : op = .resume
  · subst hop
    have he := act_resume he
    rw [resume] at he
    split at he
    · exact absurd he (by simp)
    · obtain ⟨h, hc, hj⟩ := sameThreads_lockLoop he
      exact .same ⟨h.table, h.allocated, h.nextThreadId, h.id⟩ hc hj
    · next thread x hpoint =>
      obtain ⟨rfl, rfl⟩ := Prod.mk.inj (Option.some.inj he)
      refine .joined (.inr ⟨rfl, hpoint⟩) (SameThreads.frees ?_ x)
      exact ⟨rfl, rfl, rfl, rfl⟩
    · obtain ⟨rfl, rfl⟩ := Prod.mk.inj (Option.some.inj he)
      exact .same ⟨rfl, rfl, rfl, rfl⟩ (by simp) (by simp)
  obtain ⟨-, he⟩ := act_call hop he
  cases op with
  | resume => exact absurd rfl hop
  | tick =>
    rw [call] at he
    split at he <;> obtain ⟨rfl, rfl⟩ := Prod.mk.inj (Option.some.inj he)
    · exact .same (.refl s) (by simp) (by simp)
    · exact .same ⟨rfl, rfl, rfl, rfl⟩ (by simp) (by simp)
  | yield =>
    rw [call] at he
    split at he
    · obtain ⟨rfl, rfl⟩ := Prod.mk.inj (Option.some.inj he)
      exact .same (.refl s) (by simp) (by simp)
    · next r _ =>
      obtain ⟨rfl, rfl⟩ := Prod.mk.inj (Option.some.inj he)
      have h := sameThreads_setState s r .ready
      exact .same ⟨h.table, h.allocated, h.nextThreadId, h.id⟩ (by simp) (by simp)
  | exit v =>
    obtain ⟨h, rfl⟩ := exit_sameThreads he
    exact .same h (by simp) (by simp)
  | join thread => exact join_tableChange he
  | lock m =>
    obtain ⟨h, hc, hj⟩ := sameThreads_lockLoop he
    exact .same h hc hj
  | unlock m =>
    obtain ⟨h, c, rfl⟩ := unlock_sameThreads he
    exact .same h (by simp) (by simp)
  | mutexInit m =>
    obtain ⟨rfl, rfl⟩ := Prod.mk.inj (Option.some.inj he)
    exact .same ⟨rfl, rfl, rfl, rfl⟩ (by simp) (by simp)
  | mutexDestroy m =>
    obtain ⟨rfl, rfl⟩ := Prod.mk.inj (Option.some.inj he)
    exact .same (.refl s) (by simp) (by simp)
  | create u fresh => exact create_tableChange he
  | createFails stack =>
    rw [call, createFails] at he
    -- a failed stack allocation uses up an id
    split_ifs at he with hstack
    · obtain ⟨rfl, rfl⟩ := Prod.mk.inj (Option.some.inj he)
      exact .skipped (by rw [hstack]) rfl rfl rfl rfl
    · obtain ⟨rfl, rfl⟩ := Prod.mk.inj (Option.some.inj he)
      exact .same (.refl s) (by simp) (by simp)

/-! ### The invariant -/

/-- The table holds each of its threads once, under an `id` of its own. -/
structure TableSound (s : State) : Prop where
  allocated : ∀ p, some p ∈ s.table → s.allocated p = true
  ids : ∀ p q, some p ∈ s.table → some q ∈ s.table → s.idOf p = s.idOf q → p = q
  fresh : ∀ p, some p ∈ s.table → s.idOf p < s.nextThreadId
  once : ∀ p, s.table.count (some p) ≤ 1

theorem TableSound.same (h : TableSound s) (hs : SameThreads s s') : TableSound s' := by
  obtain ⟨htable, halloc, hnext, hid⟩ := hs
  constructor
  · rw [htable, halloc]
    exact h.allocated
  · rw [htable, hid]
    exact h.ids
  · rw [htable, hid, hnext]
    exact h.fresh
  · rw [htable]
    exact h.once

/-- A block that `malloc` returns is not in the table. -/
theorem TableSound.not_mem (h : TableSound s) (hu : s.allocated u = false) :
    some u ∉ s.table := fun hmem => by
  have := h.allocated u hmem
  rw [hu] at this
  exact absurd this (by decide)

theorem TableSound.created (h : TableSound s) (hc : CreatesIn s s' u) : TableSound s' := by
  -- the block was free, so it was not in the table
  have hu := h.not_mem hc.free
  have hmem : ∀ p, some p ∈ s'.table → p = u ∨ p ≠ u ∧ some p ∈ s.table := by
    intro p hp
    rw [hc.table] at hp
    by_cases hpu : p = u
    · exact .inl hpu
    · exact .inr ⟨hpu, (mem_addThreadToTable hp).resolve_left hpu⟩
  have hid : ∀ p, p ≠ u → s'.idOf p = s.idOf p := fun p hp => by
    rw [hc.id, update_of_ne hp]
  have hidu : s'.idOf u = s.nextThreadId := by rw [hc.id, update_self]
  constructor
  · intro p hp
    rw [hc.allocated, update_apply]
    rcases hmem p hp with hpu | ⟨hpu, hp⟩
    · rw [if_pos hpu]
    · rw [if_neg hpu]
      exact h.allocated p hp
  · intro p q hp hq heq
    -- two entries with the same id: the new id was used by no thread in the table
    rcases hmem p hp with rfl | ⟨hpu, hp⟩
    · rcases hmem q hq with rfl | ⟨hqu, hq⟩
      · rfl
      · rw [hidu, hid q hqu] at heq
        exact absurd (h.fresh q hq) (by omega)
    · rcases hmem q hq with rfl | ⟨hqu, hq⟩
      · rw [hidu, hid p hpu] at heq
        exact absurd (h.fresh p hp) (by omega)
      · rw [hid p hpu, hid q hqu] at heq
        exact h.ids p q hp hq heq
  · intro p hp
    rw [hc.nextThreadId]
    rcases hmem p hp with rfl | ⟨hpu, hp⟩
    · omega
    · rw [hid p hpu]
      exact (h.fresh p hp).trans (Nat.lt_succ_self _)
  · intro p
    rw [hc.table]
    exact count_addThreadToTable hu p (h.once p)

theorem TableSound.frees (h : TableSound s) (hf : Frees s s' x) (hx : some x ∈ s.table) :
    TableSound s' := by
  have hmem : ∀ p, some p ∈ s'.table → some p ∈ s.table := fun p hp =>
    mem_removeThreadFromTable (hf.table ▸ hp)
  have hgone : some x ∉ s'.table := by
    rw [hf.table]
    exact not_mem_removeThreadFromTable (h.once x) fun q hq heq => h.ids q x hq hx heq
  constructor
  · intro p hp
    have hpx : p ≠ x := fun heq => hgone (heq ▸ hp)
    rw [hf.allocated, update_of_ne hpx]
    exact h.allocated p (hmem p hp)
  · intro p q hp hq
    rw [hf.id]
    exact h.ids p q (hmem p hp) (hmem q hq)
  · intro p hp
    rw [hf.id, hf.nextThreadId]
    exact h.fresh p (hmem p hp)
  · intro p
    rw [hf.table]
    exact (count_removeThreadFromTable _ (by simp)).trans (h.once p)

/-- The thread a `worker_join` removes is the one it was called for. -/
theorem TableStep.found (hok : TableStep s op) {thread : ℕ}
    (h : findTcbById s.table s.idOf thread = some x ∨
      op = .resume ∧ s.cpu.point = .joining thread x) :
    findTcbById s.table s.idOf thread = some x := by
  rcases h with h | ⟨rfl, hpoint⟩
  · exact h
  · rw [TableStep, hpoint] at hok
    exact hok

/-- A step keeps the table sound. -/
theorem TableSound.step (h : TableSound s) (hok : TableStep s op)
    (hc : TableChange s op s₁ after) : TableSound s₁ := by
  cases hc with
  | created _ hc => exact h.created hc
  | joined hfound hf => exact h.frees hf (mem_of_findTcbById (hok.found hfound))
  | skipped hop =>
    subst hop
    exact absurd hok (by simp [TableStep])
  | same hs _ _ => exact h.same hs

/-- The library's runs of such steps. -/
def tableRuns (pol : Policy) (Fresh : Tcb → Prop) : System State Label :=
  (library pol Fresh).restrict fun s l => TableStep s l.op

/-- A `worker_create` returned `t`, with its control block in `u`. -/
def Created (ls : List Label) (t : ℕ) (u : TcbPtr) : Prop :=
  ∃ l ∈ ls, (∃ fresh, l.op = .create u fresh) ∧ l.reply = .created t

/-- A `worker_join` returned `0` for `t`. -/
def Joined (ls : List Label) (t : ℕ) : Prop := ∃ l ∈ ls, ∃ v, l.reply = .joined t v

/-- A creation that reports a failure leaves the table, the counter and the run queue alone. -/
structure Unchanged (s s' : State) : Prop where
  table : s'.table = s.table
  threadCount : s'.threadCount = s.threadCount
  queues : SameQueues s s'

/-- The scheduler adds nothing to what the call did. -/
theorem step_tableChange {reply : Reply} {sw : Option Switch}
    (h : step pol s op entry now = some (s', reply, sw)) : TableChange s op s' (.ret reply) := by
  rw [step] at h
  split at h
  · exact absurd h (by simp)
  · next s₁ r he =>
    obtain ⟨rfl, hr⟩ := Prod.mk.inj (Option.some.inj h)
    obtain ⟨rfl, -⟩ := Prod.mk.inj hr
    exact act_tableChange he
  · next s₁ why he =>
    split at h
    · obtain ⟨⟨s₂, next⟩, hsched, heq⟩ := Option.map_eq_some_iff.mp h
      obtain ⟨rfl, hr⟩ := Prod.mk.inj heq
      obtain ⟨rfl, -⟩ := Prod.mk.inj hr
      have hs := sameThreads_schedule hsched
      have hclock : SameThreads s₁ { s₂ with clock := now } :=
        ⟨hs.table, hs.allocated, hs.nextThreadId, hs.id⟩
      cases act_tableChange he with
      | same hsame _ _ => exact .same (hsame.trans hclock) (by simp) (by simp)
    · exact absurd h (by simp)

/-- A creation with a free slot, and what is found afterwards. -/
theorem TableSound.find_created (h : TableSound s) (hc : CreatesIn s s' u)
    (hfree : none ∈ s.table) (t : ℕ) : findTcbById s'.table s'.idOf t
      = if t = s.nextThreadId then some u else findTcbById s.table s.idOf t := by
  have hu := h.not_mem hc.free
  have hidu : s'.idOf u = s.nextThreadId := by rw [hc.id, update_self]
  rw [hc.table, findTcbById_add hfree, hidu]
  · intro q hq
    have hqu : q ≠ u := fun heq => hu (heq ▸ hq)
    rw [hc.id, update_of_ne hqu]
  · intro q hq
    rw [hidu]
    exact (h.fresh q hq).ne

theorem TableSound.lt_of_find (h : TableSound s) {t : ℕ}
    (hf : findTcbById s.table s.idOf t = some u) : t < s.nextThreadId := by
  rw [← id_of_findTcbById hf]
  exact h.fresh u (mem_of_findTcbById hf)

/-- The invariant of the runs, with what has been created and joined in them. -/
theorem tableRuns_sound (hr : Run (tableRuns pol Fresh) ls s) : TableSound s ∧
    ∀ t u, Created ls t u → ¬ Joined ls t → findTcbById s.table s.idOf t = some u := by
  refine hr.history (I := fun ls s => TableSound s ∧
    ∀ t u, Created ls t u → ¬ Joined ls t → findTcbById s.table s.idOf t = some u)
    (fun s hinit => ?_) fun ls s l s' _ ⟨hsound, hfound⟩ hstep => ?_
  · obtain ⟨fresh, -, hinit⟩ := hinit
    have hnone : ∀ p, some p ∉ s.table := fun p hp => by
      rw [hinit.table, initThreadTable] at hp
      exact absurd (List.eq_of_mem_replicate hp) (by simp)
    refine ⟨⟨fun p hp => absurd hp (hnone p), fun p q hp => absurd hp (hnone p),
      fun p hp => absurd hp (hnone p), fun p => ?_⟩, ?_⟩
    · rw [List.count_eq_zero.mpr (hnone p)]
      exact Nat.zero_le _
    · rintro t u ⟨l, hl, -⟩
      exact absurd hl (by simp)
  · obtain ⟨⟨hstep, -⟩, hok⟩ := hstep
    obtain ⟨op, entry, disp, reply, sw⟩ := l
    have hc := step_tableChange hstep
    refine ⟨hsound.step hok hc, fun t u hcr hj => ?_⟩
    have hjl : ¬ Joined ls t := fun ⟨l, hl, h⟩ => hj ⟨l, List.mem_append_left _ hl, h⟩
    -- a thread of an earlier step, or the one that this step created
    have hold : Created ls t u ∨ (∃ fresh, op = .create u fresh) ∧ reply = .created t := by
      obtain ⟨l, hl, hop, hre⟩ := hcr
      rcases List.mem_append.mp hl with hl | hl
      · exact .inl ⟨l, hl, hop, hre⟩
      · obtain rfl := List.mem_singleton.mp hl
        exact .inr ⟨hop, hre⟩
    cases hc with
    | @created u' fresh hop hc =>
      obtain rfl : op = .create u' fresh := hop
      rw [hsound.find_created hc hok]
      rcases hold with hold | ⟨⟨fresh', hop⟩, hre⟩
      · have hf := hfound t u hold hjl
        rw [if_neg (hsound.lt_of_find hf).ne, hf]
      · rw [if_pos (Reply.created.inj hre).symm, (Op.create.inj hop).1]
    | @joined x thread v hx hf =>
      have ht : t ≠ thread := fun heq =>
        hj ⟨_, List.mem_append_right _ List.mem_cons_self, v, by rw [heq]⟩
      have hidx := id_of_findTcbById (hok.found hx)
      have hcr := hold.resolve_right fun h => absurd h.2 (by simp)
      rw [hf.table, hf.id, hidx, findTcbById_remove ht]
      exact hfound t u hcr hjl
    | skipped hop =>
      obtain rfl : op = .createFails true := hop
      exact absurd hok (by simp [TableStep])
    | same hs hnc _ =>
      have hcr := hold.resolve_right fun h => hnc t (by rw [h.2])
      rw [hs.table, hs.id]
      exact hfound t u hcr hjl

theorem create_found_iff (hs : TableSound s) {fresh : Tcb} {t : ℕ}
    (he : act pol s (.create u fresh) = some (s₁, .ret (.created t))) :
    findTcbById s₁.table s₁.idOf t = some u ↔ none ∈ s.table := by
  cases act_tableChange he with
  | @created u' fresh' hop hc =>
    obtain ⟨rfl, -⟩ := Op.create.inj hop
    constructor
    · intro hf
      by_contra hfull
      have hmem := mem_of_findTcbById hf
      rw [hc.table, addThreadToTable_full hfull] at hmem
      exact hs.not_mem hc.free hmem
    · intro hfree
      rw [hs.find_created hc hfree, if_pos rfl]
  | same _ hnc _ => exact absurd rfl (hnc t)

theorem createFails_unchanged_iff {stack : Bool}
    (he : act pol s (.createFails stack) = some (s₁, after)) :
    after = .ret (.code (-1)) ∧ (Unchanged s s₁ ↔ stack = false) := by
  obtain ⟨-, he⟩ := act_call (by simp) he
  rw [call, createFails] at he
  split_ifs at he with hstack
  · obtain ⟨rfl, rfl⟩ := Prod.mk.inj (Option.some.inj he)
    refine ⟨rfl, iff_of_false (fun h => ?_) (by simp [hstack])⟩
    have hcount : s.threadCount + 1 = s.threadCount := h.threadCount
    omega
  · obtain ⟨rfl, rfl⟩ := Prod.mk.inj (Option.some.inj he)
    exact ⟨rfl, iff_of_true ⟨rfl, rfl, ⟨rfl, rfl, rfl, rfl⟩⟩ (by simpa using hstack)⟩

/-- **Thread creation and the thread table agree** in the runs of `TableStep`s: a thread that was
created is found until it is joined, and the next creation is found, or leaves everything as it
was when it fails, exactly if it is a `TableStep`. -/
theorem creation_and_table_agree (hr : Run (tableRuns pol Fresh) ls s) :
    (∀ t u, Created ls t u → ¬ Joined ls t → findTcbById s.table s.idOf t = some u) ∧
    (∀ u fresh s₁ t, act pol s (.create u fresh) = some (s₁, .ret (.created t)) →
      (findTcbById s₁.table s₁.idOf t = some u ↔ TableStep s (.create u fresh))) ∧
    ∀ stack s₁ after, act pol s (.createFails stack) = some (s₁, after) →
      after = .ret (.code (-1)) ∧ (Unchanged s s₁ ↔ TableStep s (.createFails stack)) := by
  obtain ⟨hsound, hfound⟩ := tableRuns_sound hr
  exact ⟨hfound, fun u fresh s₁ t he => create_found_iff hsound he,
    fun stack s₁ after he => createFails_unchanged_iff he⟩

end

/-- The main thread creates thread `1` and looks for it. -/
theorem first_thread_found : ∃ ls s, Run (tableRuns .rr (· = Tcb.zero)) ls s ∧ Created ls 1 1 ∧
    findTcbById s.table s.idOf 1 = some 1 := by
  obtain ⟨s, hstep⟩ : ∃ s, step .rr .first (.create 1 Tcb.zero) 0 0
      = some (s, .created 1, none) := ⟨_, rfl⟩
  have h0 : Run (tableRuns .rr (· = Tcb.zero)) [] State.first :=
    .start ⟨Tcb.zero, rfl, State.first_isInit⟩
  have hr : Run (tableRuns .rr (· = Tcb.zero)) [⟨.create 1 Tcb.zero, 0, 0, .created 1, none⟩] s := by
    refine h0.step ⟨⟨hstep, ?_⟩, show none ∈ initThreadTable by decide⟩
    rintro u fresh hop
    exact (Op.create.inj hop).2.symm
  have hc : Created [⟨.create 1 Tcb.zero, 0, 0, .created 1, none⟩] 1 1 :=
    ⟨_, List.mem_cons_self, ⟨_, rfl⟩, rfl⟩
  exact ⟨_, s, hr, hc, (creation_and_table_agree hr).1 1 1 hc fun ⟨l, hl, v, hv⟩ => by
    obtain rfl := List.mem_singleton.mp hl
    exact absurd hv (by simp)⟩

/-- The `malloc` for the stack of the first thread fails, and the thread stays counted. -/
theorem failed_creation_counted : ¬ ∀ (pol : Policy) (Fresh : Tcb → Prop) ls s,
    Run (library pol Fresh) ls s →
      (∀ t u, Created ls t u → ¬ Joined ls t → findTcbById s.table s.idOf t = some u) ∧
      ∀ stack s₁, act pol s (.createFails stack) = some (s₁, .ret (.code (-1))) →
        Unchanged s s₁ := by
  intro h
  have h0 : Run (library .rr (· = Tcb.zero)) [] State.first :=
    .start ⟨Tcb.zero, rfl, State.first_isInit⟩
  obtain ⟨s₁, he, hcount⟩ : ∃ s₁, act .rr State.first (.createFails true)
      = some (s₁, .ret (.code (-1))) ∧ s₁.threadCount = 1 := ⟨_, rfl, rfl⟩
  have hsame := ((h .rr _ [] _ h0).2 true s₁ he).threadCount
  rw [hcount] at hsame
  exact absurd hsame (by decide)

end Library

end ThreadWorker
