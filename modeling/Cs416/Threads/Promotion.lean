import Cs416.Threads.Library

/-!
# Promotion under MLFQ

`promote_all_threads` is meant to move the threads of the lower levels to the top one. Its inner
loop puts a thread back into the level it was taken from, so the level never runs empty: the
loop rotates the queue for ever (`DrainLoop.ne_nil`). It ends only where there is nothing to
move, and there it does what it should (`promotion_iff`).

`DrainLoop` and `PromoteLoop` are the two loops without a bound on their iterations, and a loop
ends when one of them relates its start to its end. `promoteAllThreads`, which the scheduler
uses, is their result (`promoteAllThreads_eq_some_iff`).
-/

open Function

namespace ThreadWorker

namespace Library

/-- `while (!is_empty_queue(&mlfq_levels[i]))` in `promote_all_threads` ends in `s'`. -/
inductive DrainLoop (i : ℕ) : State → State → Prop
  | done {s} (h : s.mlfqLevels i = []) : DrainLoop i s s
  | move {s s' t rest} (h : s.mlfqLevels i = t :: rest)
      (next : DrainLoop i { s with mlfqLevels := update s.mlfqLevels i (rest ++ [t]) } s') :
      DrainLoop i s s'

/-- The `for` loop of `promote_all_threads`, from level `i` on, ends in `s'`. -/
inductive PromoteLoop : ℕ → State → State → Prop
  | done {i s} (h : maxMlfqLevels ≤ i) : PromoteLoop i s s
  | level {i s s₁ s'} (h : i < maxMlfqLevels) (drain : DrainLoop i s s₁)
      (next : PromoteLoop (i + 1) s₁ s') : PromoteLoop i s s'

/-- Rule 5: the threads of the lower levels have moved behind those of the top level, in their
order, and have its priority. Every thread is where it was, or moved, and is there once. -/
structure Promoted (s s' : State) : Prop where
  top : s'.mlfqLevels 0
    = s.mlfqLevels 0 ++ (s.mlfqLevels 1 ++ s.mlfqLevels 2 ++ s.mlfqLevels 3)
  lower : ∀ i, 0 < i → i < maxMlfqLevels → s'.mlfqLevels i = []
  priority : ∀ t ∈ s.mlfqLevels 1 ++ s.mlfqLevels 2 ++ s.mlfqLevels 3,
    (s'.tcb t).priority = 0

/-- The lower levels have no thread. -/
def LowerEmpty (s : State) : Prop := ∀ i, 0 < i → i < maxMlfqLevels → s.mlfqLevels i = []

section

variable {s s' : State} {i : ℕ}

/-- A level with a thread in it is never drained: an iteration leaves it as long as it was. -/
theorem DrainLoop.nil (h : DrainLoop i s s') : s.mlfqLevels i = [] := by
  induction h with
  | done h => exact h
  | move h _ ih =>
    dsimp only at ih
    rw [update_self] at ih
    exact absurd ih (by simp)

/-- The loop that ends has done nothing. -/
theorem DrainLoop.eq (h : DrainLoop i s s') : s' = s := by
  cases h with
  | done _ => rfl
  | move hcons next =>
    have hnil := DrainLoop.nil (.move hcons next)
    rw [hcons] at hnil
    exact absurd hnil (by simp)

theorem PromoteLoop.eq (h : PromoteLoop i s s') :
    s' = s ∧ ∀ j, i ≤ j → j < maxMlfqLevels → s.mlfqLevels j = [] := by
  induction h with
  | done h => exact ⟨rfl, fun j hij hj => absurd hj (by omega)⟩
  | level _ drain _ ih =>
    obtain rfl := drain.eq
    refine ⟨ih.1, fun j hij hj => ?_⟩
    rcases hij.eq_or_lt with rfl | hlt
    · exact drain.nil
    · exact ih.2 j hlt hj

/-- Over empty levels the loop runs to its end. The induction is on the levels that are left. -/
theorem promoteLoop_of_empty (n : ℕ) (hn : maxMlfqLevels ≤ i + n)
    (h : ∀ j, i ≤ j → j < maxMlfqLevels → s.mlfqLevels j = []) : PromoteLoop i s s := by
  induction n generalizing i with
  | zero => exact .done hn
  | succ n ih =>
    by_cases hi : maxMlfqLevels ≤ i
    · exact .done hi
    · refine .level (by omega) (.done (h i le_rfl (by omega))) ?_
      exact ih (by omega) fun j hij hj => h j (by omega) hj

/-- **The promotion ends exactly when there is nothing to promote**, and changes nothing. -/
theorem promoteLoop_iff : PromoteLoop 1 s s' ↔ s' = s ∧ LowerEmpty s := by
  constructor
  · exact fun h => ⟨h.eq.1, fun j hpos hj => h.eq.2 j hpos hj⟩
  · rintro ⟨rfl, h⟩
    exact promoteLoop_of_empty maxMlfqLevels (by omega) fun j hpos hj => h j hpos hj

theorem lowerEmpty_iff :
    LowerEmpty s ↔ s.mlfqLevels 1 = [] ∧ s.mlfqLevels 2 = [] ∧ s.mlfqLevels 3 = [] := by
  constructor
  · exact fun h => ⟨h 1 (by decide) (by decide), h 2 (by decide) (by decide),
      h 3 (by decide) (by decide)⟩
  · rintro ⟨h1, h2, h3⟩ i hpos hi
    have hi : i < 4 := hi
    interval_cases i
    · exact h1
    · exact h2
    · exact h3

/-- What the scheduler uses is the result of the loops. -/
theorem promoteAllThreads_eq_some_iff : promoteAllThreads s = some s' ↔ PromoteLoop 1 s s' := by
  rw [promoteLoop_iff, lowerEmpty_iff, promoteAllThreads]
  split
  · next h => exact ⟨fun he => ⟨(Option.some.inj he).symm, h⟩, fun he => congrArg some he.1.symm⟩
  · next h => exact ⟨fun he => absurd he (by simp), fun he => absurd he.2 h⟩

/-- With nothing to promote, Rule 5 holds of the unchanged queues. -/
theorem promoted_self (h : LowerEmpty s) : Promoted s s := by
  obtain ⟨h1, h2, h3⟩ := lowerEmpty_iff.mp h
  refine ⟨?_, h, fun t ht => ?_⟩
  · rw [h1, h2, h3]
    simp
  · rw [h1, h2, h3] at ht
    exact absurd ht (by simp)

/-- **Rule 5**: for all contents of the queues, `promote_all_threads` ends and promotes exactly
when the lower levels are empty. -/
theorem promotion_iff (s : State) :
    (∃ s', PromoteLoop 1 s s') ∧ (∀ s', PromoteLoop 1 s s' → Promoted s s') ↔ LowerEmpty s := by
  constructor
  · rintro ⟨⟨s', h⟩, -⟩
    exact (promoteLoop_iff.mp h).2
  · intro h
    refine ⟨⟨s, promoteLoop_iff.mpr ⟨rfl, h⟩⟩, fun s' hs' => ?_⟩
    rw [(promoteLoop_iff.mp hs').1]
    exact promoted_self h

end

/-- One thread on level `1`. -/
def State.demoted : State :=
  { State.first with mlfqLevels := fun i => if i = 1 then [7] else [] }

/-- A single demoted thread keeps the promotion busy for ever. -/
theorem promotion_of_one_thread :
    ¬ ∀ s : State, (∃ s', PromoteLoop 1 s s') ∧ ∀ s', PromoteLoop 1 s s' → Promoted s s' := by
  intro h
  obtain ⟨⟨s', hs'⟩, -⟩ := h State.demoted
  exact absurd ((promoteLoop_iff.mp hs').2 1 (by decide) (by decide)) (by decide)

end Library

end ThreadWorker
