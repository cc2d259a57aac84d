import Cs416.Threads.OwnContexts

/-!
# Mutual exclusion

Each mutex has a token (`Token`). `atomic_flag_test_and_set` hands it out and
`atomic_flag_clear` takes it back, so the flag is set exactly while a thread has it. The late
store of `owner_tcb` and its early reset both happen under the token: a thread that is about to
store itself, the recorded owner, a thread that has passed the owner check of an unlock, and
every thread inside the critical section are the holder of the token.
-/

open Function Lts

namespace ThreadWorker

/-- The statements of `m` that only the holder of its token performs. -/
def Pc.Holds (m : MutexPtr) (p : Pc) : Prop :=
  p = .setOwner m ∨ p = .clearOwner m ∨ p = .clearFlag m

/-- `k` has the token of `m`. -/
structure Token (s : State) (m : MutexPtr) (k : Option TcbPtr) : Prop where
  flag : (s.shared.mutex m).locked = k.isSome
  inside : ∀ t, s.inside t m = true → k = some t
  owner : ∀ t, (s.shared.mutex m).ownerTcb = some t → k = some t
  holds : ∀ t, (s.pcOf t).Holds m → k = some t
  /-- The owner is reset before the flag is cleared. -/
  cleared : ∀ t, s.pcOf t = .clearFlag m → (s.shared.mutex m).ownerTcb = none

section
variable {s s' : State} {m : MutexPtr} {k : Option TcbPtr} {sh sh' : Shared} {t mainTcb : TcbPtr}
  {p : Pc} {next : Next}

/-- A step that leaves the flag and the owner of `m` alone, and brings no thread to a statement
of the holder, leaves the token where it is. -/
theorem Token.frame (h : Token s m k)
    (hflag : (s'.shared.mutex m).locked = (s.shared.mutex m).locked)
    (howner : (s'.shared.mutex m).ownerTcb = (s.shared.mutex m).ownerTcb)
    (hin : ∀ t, s'.inside t m = true → s.inside t m = true)
    (hpc : ∀ t, (s'.pcOf t).Holds m → s'.pcOf t = s.pcOf t) : Token s' m k where
  flag := hflag.trans h.flag
  inside t ht := h.inside t (hin t ht)
  owner t ht := h.owner t (howner ▸ ht)
  holds t ht := h.holds t (hpc t ht ▸ ht)
  cleared t ht := by
    rw [howner]
    exact h.cleared t (hpc t (.inr (.inr ht)) ▸ ht)

/-- The statements that neither touch the flag or the owner of `m` nor belong to its holder. -/
theorem exec_frame (h : exec mainTcb t sh (some t) p = some (sh', next))
    (htas : p ≠ .testAndSet m) (hcheck : p ≠ .checkOwner m) (hp : ¬ p.Holds m) :
    (sh'.mutex m).locked = (sh.mutex m).locked ∧
      (sh'.mutex m).ownerTcb = (sh.mutex m).ownerTcb ∧ ¬ next.pc.Holds m := by
  cases p <;> simp only [exec, Option.bind_some, Option.bind_eq_some_iff] at h <;>
    grind [Pc.Holds, Next.pc]
theorem Holds_entry (k : Call) : ¬ k.entry.Holds m := by
  cases k <;> simp [Call.entry, Pc.Holds]

/-- A statement moves the token only at the test-and-set and at the flag clear. -/
theorem Token.stmt (h : Token s m k)
    (he : exec s.mainTcb t s.shared (some t) (s.pcOf t) = some (sh, next))
    (hmu : ∀ m, s'.shared.mutex m = sh.mutex m)
    (hpc : ∀ u, s'.pcOf u = if u = t then next.pc else s.pcOf u)
    (hin : ∀ u, s'.inside u m = observe ⟨t, s.pcOf t⟩ s.inside u m) : ∃ k', Token s' m k' := by
  obtain ⟨hflag, hinside, howner, hholds, hcleared⟩ := h
  simp only [observe] at hin
  by_cases htas : s.pcOf t = .testAndSet m
  · rw [htas] at he hin
    simp only [exec] at he
    by_cases hl : (s.shared.mutex m).locked
    · exact ⟨k, by grind, by grind, by grind, by grind [Pc.Holds, Next.pc], by grind [Next.pc]⟩
    · -- the flag was clear, so nobody had the token
      have hnone : k = none := by
        rw [hflag, Bool.not_eq_true, Option.isSome_eq_false_iff] at hl
        exact Option.isNone_iff_eq_none.mp hl
      exact ⟨some t, by grind, by grind, by grind, by grind [Pc.Holds, Next.pc],
        by grind [Next.pc]⟩
  -- the test of the owner moves nothing
  by_cases hcheck : s.pcOf t = .checkOwner m
  · rw [hcheck] at he hin
    simp only [exec] at he
    exact ⟨k, by grind, by grind, by grind, by grind [Pc.Holds, Next.pc], by grind [Next.pc]⟩
  by_cases hp : (s.pcOf t).Holds m
  · have hk := hholds t hp
    rcases hp with hp | hp | hp <;> rw [hp] at he hin <;> simp only [exec] at he
    · exact ⟨k, by grind, by grind, by grind, by grind [Pc.Holds, Next.pc],
        by grind [Pc.Holds, Next.pc]⟩
    · exact ⟨k, by grind, by grind, by grind, by grind [Pc.Holds, Next.pc],
        by grind [Pc.Holds, Next.pc]⟩
    · -- the holder gives the token back
      exact ⟨none, by grind, by grind, by grind, by grind [Pc.Holds, Next.pc],
        by grind [Pc.Holds, Next.pc]⟩
  -- any other statement leaves the flag and the owner of `m` alone
  · obtain ⟨hf, ho, hn⟩ := exec_frame he htas hcheck hp
    exact ⟨k, by grind, by grind [Pc.Holds], by grind, by grind [Pc.Holds], by grind [Pc.Holds]⟩
/-- Every step keeps one holder of the token. -/
theorem Token.step (h : Token s m k) {l : Label} (hm : Moved s s' l) : ∃ k', Token s' m k' := by
  cases hm with
  | stmt t sh next hon he hsh hpc hin hon' =>
    refine h.stmt he (fun m => ?_) (fun u => by rw [hpc, update_apply]) fun u => by rw [hin]
    rw [hsh]
    split
    · rw [Shared.preempt_mutex]
    · rfl
  | call t c hon huser hsh hpc hin hon' =>
    refine ⟨k, h.frame (by rw [hsh]) (by rw [hsh]) (fun u hu => hin ▸ hu) fun u hu => ?_⟩
    -- a call starts outside the critical section
    rw [hpc, update_apply] at hu ⊢
    split at hu
    · exact absurd hu (by cases c <;> simp [Call.entry, Pc.Holds])
    · rw [if_neg ‹_›]
  | create t v fresh hon huser hne hfree hexited hsh hpc hin hon' =>
    refine ⟨k, h.frame (by rw [hsh]; rfl) (by rw [hsh]; rfl) (fun u hu => ?_) fun u hu => ?_⟩
    · rw [hin, update_apply] at hu
      split at hu
      · exact absurd hu (by simp)
      · exact hu
    · rw [hpc, update_apply] at hu ⊢
      split at hu
      · exact absurd hu (by simp [Pc.Holds])
      · rw [if_neg ‹_›]
  | tick t hon hsh hpc hin hon' =>
    exact ⟨k, h.frame (by rw [hsh, Shared.preempt_mutex]) (by rw [hsh, Shared.preempt_mutex])
      (fun u hu => hin ▸ hu) fun u _ => by rw [hpc]⟩
  | dispatch t q hon hready hsh hpc hin hon' =>
    exact ⟨k, h.frame (by rw [hsh]; rfl) (by rw [hsh]; rfl) (fun u hu => hin ▸ hu)
      fun u _ => by rw [hpc]⟩

/-- An initialised mutex is free, or the main thread has locked it. -/
theorem IsInit.token (h : IsInit s) (m : MutexPtr) : ∃ k, Token s m k := by
  -- no thread is inside a call that holds a mutex before the first step
  have hpc : ∀ t, ¬ (s.pcOf t).Holds m ∧ s.pcOf t ≠ .clearFlag m := by
    intro t
    by_cases ht : t = s.mainTcb
    · rw [ht, State.pcOf_self h.cpu]
      simp [Pc.Holds]
    · rw [State.pcOf_other h.cpu ht, (h.others t ht).1]
      simp [Pc.Holds]
  rcases h.mutexes m with ⟨hm, hin⟩ | ⟨hm, hin⟩
  · refine ⟨none, ?_, ?_, ?_, fun t ht => absurd ht (hpc t).1, fun t ht => absurd ht (hpc t).2⟩
    · rw [hm]
      rfl
    · intro t ht
      rw [hin t] at ht
      exact absurd ht (by simp)
    · intro t ht
      rw [hm] at ht
      exact absurd ht (by simp [Mutex.init])
  · refine ⟨some s.mainTcb, ?_, fun t ht => congrArg some (hin t ht).symm, ?_,
      fun t ht => absurd ht (hpc t).1, fun t ht => absurd ht (hpc t).2⟩
    · rw [hm]
      rfl
    · intro t ht
      rw [hm] at ht
      exact absurd ht (by simp [Mutex.init])
end

/-- An unlock by another thread than the recorded owner fails and changes nothing. -/
theorem exec_checkOwner_of_ne {mainTcb t u : TcbPtr} {sh : Shared} {m : MutexPtr}
    (howner : (sh.mutex m).ownerTcb = some u) (hne : u ≠ t) :
    exec mainTcb t sh (some t) (.checkOwner m) = some (sh, .ret (-1)) := by
  rw [exec, howner, if_pos (by simpa using hne)]

/-- Runs in which the scheduler dispatches ready threads keep the contexts apart and one holder
for each token. -/
theorem readyRun_inv {ls : List Label} {s : State}
    (hr : Run (machine.restrict DispatchesReady) ls s) :
    OwnContexts s ∧ ∀ m, ∃ k, Token s m k := by
  refine hr.invariant (I := fun s => OwnContexts s ∧ ∀ m, ∃ k, Token s m k)
    (fun s h => ⟨IsInit.ownContexts h, IsInit.token h⟩) fun s l s' hI hs => ?_
  obtain ⟨hown, hmoved, -⟩ := hI.1.step hs.1 hs.2
  refine ⟨hown, fun m => ?_⟩
  obtain ⟨k, hk⟩ := hI.2 m
  exact hk.step hmoved

/-- **Mutual exclusion**, for any number of threads and mutexes, any program and ticks between
any two statements, as long as the scheduler dispatches ready threads. Two threads inside the
critical section of a mutex are the same thread, whether or not they have terminated. While a
different owner is recorded, the unlock statement returns `-1` and leaves all shared memory,
and so flag, owner and wait queue, as it is. -/
theorem mutual_exclusion {ls : List Label} {s : State}
    (hr : Run (machine.restrict DispatchesReady) ls s) :
    (∀ m t u, s.inside t m = true → s.inside u m = true → t = u) ∧
      ∀ m t u, s.cpu = some ⟨t, .checkOwner m⟩ → (s.shared.mutex m).ownerTcb = some u → u ≠ t →
        exec s.mainTcb t s.shared s.running (.checkOwner m) = some (s.shared, .ret (-1)) ∧
          step s .stmt = some { s with cpu := some ⟨t, .user⟩ } := by
  obtain ⟨hown, htoken⟩ := readyRun_inv hr
  refine ⟨fun m t u ht hu => ?_, fun m t u hcpu howner hne => ?_⟩
  · obtain ⟨k, hk⟩ := htoken m
    exact Option.some.inj ((hk.inside t ht).symm.trans (hk.inside u hu))
  · have hrun := hown.running _ hcpu
    have he : exec s.mainTcb t s.shared s.running (.checkOwner m) = some (s.shared, .ret (-1)) := by
      rw [hrun]
      exact exec_checkOwner_of_ne howner hne
    refine ⟨he, ?_⟩
    rw [step, hcpu]
    dsimp only
    rw [he]
    have hobs : observe ⟨t, .checkOwner m⟩ s.inside = s.inside := by
      funext x y
      simp [observe]
    dsimp only
    rw [hobs]
    rfl

/-- Thread `1` tries to unlock the mutex that the main thread has locked. -/
def unlockOfOthers : List Label :=
  [.call (.lock 0), .stmt, .stmt, .create 1 Tcb.zero, .tick, .dispatch 1, .call (.unlock 0)]

/-- The main thread is alone in the critical section, and thread `1` cannot unlock it. -/
theorem mutual_exclusion_unlockOfOthers :
    ∃ s, Run (machine.restrict DispatchesReady) unlockOfOthers s ∧ s.inside 0 0 = true ∧
      (∀ u, s.inside u 0 = true → u = 0) ∧
      step s .stmt = some { s with cpu := some ⟨1, .user⟩ } := by
  obtain ⟨s, hs, hin, hcpu, howner⟩ : ∃ s,
      steps (stepIf DispatchesReady step) .first unlockOfOthers = some s ∧
      s.inside 0 0 = true ∧ s.cpu = some ⟨1, .checkOwner 0⟩ ∧
      (s.shared.mutex 0).ownerTcb = some 0 := ⟨_, rfl, rfl, rfl, rfl⟩
  have hr : Run (machine.restrict DispatchesReady) unlockOfOthers s :=
    .stepsIf (fun _ _ _ h => h) State.first_isInit hs
  exact ⟨s, hr, hin, fun u hu => (mutual_exclusion hr).1 0 u 0 hu hin,
    ((mutual_exclusion hr).2 0 1 0 hcpu howner (by decide)).2⟩

end ThreadWorker
