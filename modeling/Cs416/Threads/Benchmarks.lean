import Cs416.Lib.SharedSum
import Cs416.Threads.MutualExclusion
import Cs416.Threads.Wakeups

/-!
# The benchmarks add up

The workers of `vector_multiply.c`, `parallel_cal.c` and `external_cal.c` add to the global `sum`
between a `pthread_mutex_lock` and a `pthread_mutex_unlock`, which `thread-worker.h` turns into the
calls of the library. They run here on the library one statement at a time; between the load and
the store of `sum += x` the timer may strike as well. Whatever is dispatched when, `sum` is in the
end what `verify` computes (`benchmark_verified`).

The terms are values of any commutative monoid: what `int` does on overflow does not matter.
-/

open Function Lts SharedSum

namespace ThreadWorker

/-! ### The programs -/

/-- What `parallel_calculate` leaves in `pSum[j]`, which only the worker of row `j` writes. -/
def pSum {A : Type*} [CommSemiring A] (cSize : ℕ) (a : ℕ → ℕ → A) (j : ℕ) : A :=
  (List.range cSize).foldl (fun sum i => sum + a j i * (i : A)) 0

/-- The benchmarks, with their sizes and their data. -/
inductive Program (A : Type*)
  | vectorMultiply (vectorSize : ℕ) (r s : ℕ → A)
  | parallelCalculate (rSize cSize : ℕ) (a : ℕ → ℕ → A)
  /-- `record k` are the numbers that `fscanf` reads from file `k`. -/
  | externalCalculate (recordNum : ℕ) (record : ℕ → List A)

namespace Program

variable {A : Type*} [CommSemiring A]

/-- The bound of the outer loop. -/
def size : Program A → ℕ
  | vectorMultiply vectorSize _ _ => vectorSize
  | parallelCalculate rSize _ _ => rSize
  | externalCalculate recordNum _ => recordNum

/-- What is added in round `j` of the outer loop. -/
def terms : Program A → ℕ → List A
  | vectorMultiply _ r s, i => [r i * s i]
  | parallelCalculate _ cSize a, j => [pSum cSize a j]
  | externalCalculate _ record, k => record k

/-- What worker `n` adds. -/
def work (p : Program A) (threadNum n : ℕ) : List A := (strided threadNum p.size n).flatMap p.terms

end Program

/-! ### Running on the library -/

/-- The library and the memory of the benchmark. -/
structure Bench (A : Type*) where
  lib : State
  adders : Adders TcbPtr A

/-- A step of the library, or half of `sum += x`. -/
inductive Act
  | lib (l : Label)
  | load
  | store

namespace Bench

variable {A : Type*} [AddCommMonoid A]

/-- The calls of a worker. -/
def workerMove (mutex : MutexPtr) (t : TcbPtr) : Call → Option (Move TcbPtr)
  | .lock m => if m = mutex then some (.lock t) else none
  | .unlock m => if m = mutex then some (.unlock t) else none
  | .exit 0 => some (.exit t)
  | _ => none

/-- What the program does with a step of the library: `main` creates the workers and joins
threads, and a worker goes through its loop. -/
def program (mutex : MutexPtr) (threadNum : ℕ) (work : ℕ → List A) (b : Bench A) :
    Label → Option (Adders TcbPtr A)
  | .call k => b.lib.onCpu.bind fun t =>
    if t ∈ b.adders.workers then (workerMove mutex t k).bind (b.adders.move work)
    else
      match k with
      | .join _ => some b.adders
      | _ => none
  | .create u _ => b.lib.onCpu.bind fun t =>
    if t ∉ b.adders.workers ∧ b.adders.created < threadNum then b.adders.move work (.spawn u)
    else none
  | _ => some b.adders

/-- The thread whose own code is on the CPU makes a move. -/
def own (work : ℕ → List A) (b : Bench A) (mv : TcbPtr → Move TcbPtr) : Option (Bench A) :=
  match b.lib.cpu with
  | some ⟨t, .user⟩ => (b.adders.move work (mv t)).map fun adders => { b with adders := adders }
  | _ => none

def step (mutex : MutexPtr) (threadNum : ℕ) (work : ℕ → List A) (b : Bench A) :
    Act → Option (Bench A)
  | .lib l => (ThreadWorker.step b.lib l).bind fun lib =>
    (b.program mutex threadNum work l).map fun adders => ⟨lib, adders⟩
  | .load => b.own work .load
  | .store => b.own work .store

/-- The scheduler dispatches ready threads. -/
def Ready (b : Bench A) : Act → Prop
  | .lib l => DispatchesReady b.lib l
  | .load | .store => True

instance (b : Bench A) : (a : Act) → Decidable (b.Ready a)
  | .lib l => inferInstanceAs (Decidable (DispatchesReady b.lib l))
  | .load | .store => .isTrue trivial

end Bench

section

variable {mainTcb t u : TcbPtr} {sh sh' : Shared} {p : Pc} {next : Next} {m : MutexPtr}

attribute [local grind] Next.pc Pc.lockOf Pc.unlockOf Pc.inExit

theorem exec_lockOf (h : exec mainTcb t sh (some t) p = some (sh', next))
    (hp : p.lockOf = some m) : next.pc.lockOf = some m ∨ p = .setOwner m ∧ next.pc = .user := by
  cases p <;> simp only [exec, Option.bind_some, Option.bind_eq_some_iff] at h <;> grind

theorem exec_unlockOf (h : exec mainTcb t sh (some t) p = some (sh', next))
    (hp : p.unlockOf = some m) : next.pc.unlockOf = some m ∨ next.pc = .user := by
  cases p <;> simp only [exec, Option.bind_some, Option.bind_eq_some_iff] at h <;> grind

theorem exec_inExit (h : exec mainTcb t sh (some t) p = some (sh', next))
    (hp : p.inExit = true) : next.pc.inExit = true ∨ next.pc = .user := by
  cases p <;> simp only [exec, Option.bind_some, Option.bind_eq_some_iff] at h <;> grind

variable {A : Type*} {todo : List A} {g : Stage A} {i : Bool} {inside : TcbPtr → MutexPtr → Bool}

/-- Where the code of a worker stands, by its place in the loop: between the lock and the unlock
it is in its own code, in the critical section. -/
def StageOk (m : MutexPtr) (p : Pc) (inside : Bool) (todo : List A) : Stage A → Prop
  | .test => p = .user ∨ p.unlockOf = some m ∨ p.inExit = true ∧ todo = []
  | .locked => p.lockOf = some m ∨ p = .user ∧ inside = true
  | .loaded _ => p = .user ∧ inside = true
  | .stored => p = .user ∧ inside = true

/-- A statement of the library does not move a worker in its loop; when the lock returns, the
worker is inside. -/
theorem StageOk.stmt (h : StageOk m p (inside t m) todo g)
    (he : exec mainTcb t sh (some t) p = some (sh', next)) :
    StageOk m next.pc (observe ⟨t, p⟩ inside t m) todo g := by
  have huser : p ≠ .user := by
    rintro rfl
    exact absurd he (by simp [exec])
  cases g with
  | test =>
    rcases h with h | h | ⟨h, hnil⟩
    · exact absurd h huser
    · exact (exec_unlockOf he h).elim (fun h => .inr (.inl h)) .inl
    · exact (exec_inExit he h).elim (fun h => .inr (.inr ⟨h, hnil⟩)) .inl
  | locked =>
    rcases h with h | ⟨h, -⟩
    · rcases exec_lockOf he h with hnext | ⟨rfl, hnext⟩
      · exact .inl hnext
      · exact .inr ⟨hnext, if_pos ⟨rfl, rfl⟩⟩
    · exact absurd h huser
  | loaded w => exact absurd h.1 huser
  | stored => exact absurd h.1 huser

/-- A worker that exits has nothing left to add. -/
theorem StageOk.todo_of_inExit (h : StageOk m p i todo g) (hp : p.inExit = true) : todo = [] := by
  have huser : p ≠ .user := by
    rintro rfl
    exact absurd hp (by simp [Pc.inExit])
  cases g with
  | test =>
    rcases h with h | h | ⟨-, hnil⟩
    · exact absurd h huser
    · exact absurd hp (by cases p <;> simp_all [Pc.unlockOf, Pc.inExit])
    · exact hnil
  | locked =>
    rcases h with h | ⟨h, -⟩
    · exact absurd hp (by cases p <;> simp_all [Pc.lockOf, Pc.inExit])
    · exact absurd h huser
  | loaded w => exact absurd h.1 huser
  | stored => exact absurd h.1 huser

variable [AddCommMonoid A] {work : ℕ → List A} {threadNum : ℕ} {b b' : Bench A}

/-- What holds in every state. -/
structure Bench.Good (m : MutexPtr) (work : ℕ → List A) (b : Bench A) : Prop where
  balanced : Balanced work 0 b.adders
  stages : ∀ t ∈ b.adders.workers,
    StageOk m (b.lib.pcOf t) (b.lib.inside t m) (b.adders.todo t) (b.adders.stage t)

namespace Bench

/-- Two threads in the critical section are one. -/
def Alone (m : MutexPtr) (s : State) : Prop :=
  ∀ t u, s.inside t m = true → s.inside u m = true → t = u

theorem Good.loaded (h : b.Good m work) {w : A} (hw : b.adders.stage t = .loaded w) :
    b.lib.pcOf t = .user ∧ b.lib.inside t m = true := by
  have ht := h.stages t (h.balanced.worker t (by rw [hw]; simp))
  rw [hw] at ht
  exact ht

/-- A move of the worker `t` to the place `g` of its loop. -/
theorem Good.staged (h : b.Good m work) {s' : State} {adders : Adders TcbPtr A}
    (hbal : Balanced work 0 adders) (hworkers : adders.workers = b.adders.workers)
    (hstage : ∀ u, u ≠ t → adders.stage u = b.adders.stage u)
    (htodo : ∀ u, u ≠ t → adders.todo u = b.adders.todo u)
    (hpc : ∀ u, u ≠ t → s'.pcOf u = b.lib.pcOf u) (hin : s'.inside = b.lib.inside)
    (ht : StageOk m (s'.pcOf t) (s'.inside t m) (adders.todo t) (adders.stage t)) :
    (⟨s', adders⟩ : Bench A).Good m work where
  balanced := hbal
  stages u hu := by
    dsimp only at hu ⊢
    by_cases hut : u = t
    · rw [hut]
      exact ht
    · rw [hstage u hut, htodo u hut, hpc u hut, hin]
      exact h.stages u (hworkers ▸ hu)

/-- A call of a worker. -/
theorem Good.call (h : b.Good m work) {s' : State} {adders : Adders TcbPtr A} {k : Call}
    {mv : Move TcbPtr} (ht : t ∈ b.adders.workers) (hk : workerMove m t k = some mv)
    (hmv : b.adders.move work mv = some adders)
    (hpc : s'.pcOf = update b.lib.pcOf t k.entry) (hin : s'.inside = b.lib.inside) :
    (⟨s', adders⟩ : Bench A).Good m work := by
  have hself : s'.pcOf t = k.entry := by rw [hpc, update_self]
  have hother : ∀ u, u ≠ t → s'.pcOf u = b.lib.pcOf u := fun u hu => by rw [hpc, update_of_ne hu]
  unfold workerMove at hk
  split at hk
  · split at hk
    · next hm =>
      obtain rfl := Option.some.inj hk
      have hbal := h.balanced.move hmv (by simp) (fun u hu => Move.lock.inj hu ▸ ht) (by simp)
      rw [Adders.move] at hmv
      split at hmv
      · obtain rfl := Option.some.inj hmv
        refine h.staged hbal rfl (fun u hu => update_of_ne hu _ _) (fun u _ => rfl) hother hin ?_
        rw [hself, hm]
        dsimp only
        rw [update_self]
        exact .inl rfl
      · exact absurd hmv (by simp)
    · exact absurd hk (by simp)
  · split at hk
    · next hm =>
      obtain rfl := Option.some.inj hk
      have hbal := h.balanced.move hmv (by simp) (by simp) (by simp)
      rw [Adders.move] at hmv
      split at hmv
      · obtain rfl := Option.some.inj hmv
        refine h.staged hbal rfl (fun u hu => update_of_ne hu _ _) (fun u _ => rfl) hother hin ?_
        rw [hself, hm]
        dsimp only
        rw [update_self]
        exact .inr (.inl rfl)
      · exact absurd hmv (by simp)
    · exact absurd hk (by simp)
  · obtain rfl := Option.some.inj hk
    rw [Adders.move] at hmv
    split at hmv
    · next hstage htodo =>
      obtain rfl := Option.some.inj hmv
      refine h.staged h.balanced rfl (fun u _ => rfl) (fun u _ => rfl) hother hin ?_
      rw [hself, hstage]
      exact .inr (.inr ⟨rfl, htodo⟩)
    · exact absurd hmv (by simp)
  · exact absurd hk (by simp)

/-- `main` creates a worker. A block that was another worker's before is free when that one has
exited, so it had nothing left to add. -/
theorem Good.create (h : b.Good m work) {s' : State} {adders : Adders TcbPtr A}
    (hmv : b.adders.move work (.spawn u) = some adders) (hexited : b.lib.pcOf u = .exited)
    (hpc : s'.pcOf = update b.lib.pcOf u .user)
    (hin : ∀ w, w ≠ u → s'.inside w = b.lib.inside w) :
    (⟨s', adders⟩ : Bench A).Good m work := by
  have htodo : u ∈ b.adders.workers → b.adders.todo u = [] := fun hu =>
    (h.stages u hu).todo_of_inExit (by rw [hexited]; rfl)
  have hbal := h.balanced.spawn htodo hmv
  obtain rfl := Option.some.inj hmv
  refine ⟨hbal, fun w hw => ?_⟩
  dsimp only at hw ⊢
  by_cases hwu : w = u
  · rw [hwu, hpc]
    simp only [update_self]
    exact .inl rfl
  · rw [hpc, update_of_ne hwu, update_of_ne hwu, update_of_ne hwu, hin w hwu]
    exact h.stages w (Finset.mem_of_mem_insert_of_ne hw hwu)

/-- A step of the library. -/
theorem Good.lib (h : b.Good m work) {s' : State} {l : Label} {adders : Adders TcbPtr A}
    (hm : Moved b.lib s' l) (hp : b.program m threadNum work l = some adders) :
    (⟨s', adders⟩ : Bench A).Good m work := by
  cases hm with
  | stmt t sh next hon he hsh hpc hin hon' =>
    obtain rfl := Option.some.inj hp
    refine ⟨h.balanced, fun u hu => ?_⟩
    dsimp only at hu ⊢
    rw [hpc, hin]
    by_cases hut : u = t
    · rw [hut, update_self]
      exact (h.stages t (hut ▸ hu)).stmt he
    · rw [update_of_ne hut]
      have hsame : observe ⟨t, b.lib.pcOf t⟩ b.lib.inside u m = b.lib.inside u m := by
        simp [observe, hut]
      rw [hsame]
      exact h.stages u hu
  | call t k hon huser hsh hpc hin hon' =>
    unfold program at hp
    dsimp only at hp
    rw [hon, Option.bind_some] at hp
    by_cases ht : t ∈ b.adders.workers
    · rw [if_pos ht] at hp
      obtain ⟨mv, hk, hmv⟩ := Option.bind_eq_some_iff.mp hp
      exact h.call ht hk hmv hpc hin
    · rw [if_neg ht] at hp
      -- a join of the main thread
      split at hp
      · obtain rfl := Option.some.inj hp
        refine ⟨h.balanced, fun u hu => ?_⟩
        dsimp only at hu ⊢
        have hut : u ≠ t := by
          rintro rfl
          exact ht hu
        rw [hpc, update_of_ne hut, hin]
        exact h.stages u hu
      · exact absurd hp (by simp)
  | create t u fresh hon huser hne hfree hexited hsh hpc hin hon' =>
    rw [program, hon, Option.bind_some] at hp
    split at hp
    · exact h.create hp hexited hpc fun w hw => by rw [hin, update_of_ne hw]
    · exact absurd hp (by simp)
  | tick t hon hsh hpc hin hon' =>
    obtain rfl := Option.some.inj hp
    exact ⟨h.balanced, fun u hu => by dsimp only; rw [hpc, hin]; exact h.stages u hu⟩
  | dispatch t q hon hready hsh hpc hin hon' =>
    obtain rfl := Option.some.inj hp
    exact ⟨h.balanced, fun u hu => by dsimp only; rw [hpc, hin]; exact h.stages u hu⟩

/-- Half of `sum += x`. Nobody else has `sum` loaded, for he would be in the critical section. -/
theorem Good.own (h : b.Good m work) (halone : Alone m b.lib) {mv : TcbPtr → Move TcbPtr}
    (hmv : mv = .load ∨ mv = .store) (hs : b.own work mv = some b') : b'.Good m work := by
  unfold Bench.own at hs
  split at hs
  · next t hcpu =>
    obtain ⟨adders, hmove, rfl⟩ := Option.map_eq_some_iff.mp hs
    have huser : b.lib.pcOf t = .user := State.pcOf_self hcpu
    rcases hmv with rfl | rfl
    · have hbal := h.balanced.move hmove (by simp) (by simp) (by simp)
      rw [Adders.move] at hmove
      split at hmove
      · next hstage =>
        obtain rfl := Option.some.inj hmove
        refine h.staged hbal rfl (fun u hu => update_of_ne hu _ _) (fun u _ => rfl)
          (fun u _ => rfl) rfl ?_
        have hin := h.stages t (h.balanced.worker t (by rw [hstage]; simp))
        rw [hstage, huser] at hin
        rcases hin with hin | hin
        · exact absurd hin (by simp [Pc.lockOf])
        · dsimp only
          rw [update_self, huser]
          exact hin
      · exact absurd hmove (by simp)
    · have hstore : ∀ u w, b.adders.stage u = .loaded w → u = t := by
        intro u w hw
        rw [Adders.move] at hmove
        split at hmove
        · next v c rest hstage htodo => exact halone u t (h.loaded hw).2 (h.loaded hstage).2
        · exact absurd hmove (by simp)
      have hbal := h.balanced.store hstore hmove
      rw [Adders.move] at hmove
      split at hmove
      · next v c rest hstage htodo =>
        obtain rfl := Option.some.inj hmove
        refine h.staged hbal rfl (fun u hu => update_of_ne hu _ _)
          (fun u hu => update_of_ne hu _ _) (fun u _ => rfl) rfl ?_
        simp only [update_self]
        exact h.loaded hstage
      · exact absurd hmove (by simp)
  · exact absurd hs (by simp)

end Bench

end

/-- Each worker is preempted between the load and the store of `sum`, or before it starts. -/
def interrupted : List Act :=
  [.lib (.create 1 Tcb.zero), .lib (.create 2 Tcb.zero), .lib .tick,
    .lib (.dispatch 1), .lib (.call (.lock 0)), .lib .stmt, .lib .stmt, .load, .lib .tick,
    .lib (.dispatch 2), .lib .tick,
    .lib (.dispatch 1), .store, .lib (.call (.unlock 0)), .lib .stmt, .lib .stmt, .lib .stmt,
    .lib .stmt, .lib (.call (.exit 0)), .lib .tick,
    .lib (.dispatch 2), .lib (.call (.lock 0)), .lib .stmt, .lib .stmt, .load, .store,
    .lib (.call (.unlock 0)), .lib .stmt, .lib .stmt, .lib .stmt, .lib .stmt,
    .lib (.call (.exit 0))]

end ThreadWorker
