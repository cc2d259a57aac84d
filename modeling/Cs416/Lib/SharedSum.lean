import Mathlib.Tactic

/-!
# Workers that add to a shared variable

A worker takes the elements of a list one after the other and adds each to a variable that all
workers share, between a lock and an unlock of a mutex: it loads the variable, and stores the sum
in a step of its own. `Adders.move` is what a worker does to the shared state; which moves are
possible when is up to the program that the moves come from, and to its mutex.

What the variable holds and what the workers have still to add stay in balance (`Balanced`), as
long as a worker stores only while no other one has the variable loaded.
-/

open Function

namespace SharedSum

/-- Where a worker is in the body of its loop. -/
inductive Stage (A : Type*)
  /-- At the test of the loop. -/
  | test
  /-- It has called lock. -/
  | locked
  /-- It has loaded the variable. -/
  | loaded (v : A)
  /-- It has stored the sum. -/
  | stored

/-- The variable and the workers. The `i`-th worker is given the list `work i`. -/
structure Adders (T A : Type*) where
  sum : A
  created : ℕ
  workers : Finset T
  todo : T → List A
  stage : T → Stage A

/-- What a worker does. -/
inductive Move (T : Type*)
  | spawn (t : T)
  | lock (t : T)
  | load (t : T)
  | store (t : T)
  | unlock (t : T)
  | exit (t : T)

variable {T A : Type*} [AddCommMonoid A]

namespace Adders

/-- The loop of a worker: lock, load, store, unlock for each element of its list, then exit. -/
def move [DecidableEq T] (work : ℕ → List A) (s : Adders T A) : Move T → Option (Adders T A)
  | .spawn t =>
    some { s with
      created := s.created + 1
      workers := insert t s.workers
      todo := update s.todo t (work s.created)
      stage := update s.stage t .test }
  | .lock t =>
    match s.stage t, s.todo t with
    | .test, _ :: _ => some { s with stage := update s.stage t .locked }
    | _, _ => none
  | .load t =>
    match s.stage t with
    | .locked => some { s with stage := update s.stage t (.loaded s.sum) }
    | _ => none
  | .store t =>
    match s.stage t, s.todo t with
    | .loaded v, c :: rest =>
      some { s with
        sum := v + c
        todo := update s.todo t rest
        stage := update s.stage t .stored }
    | _, _ => none
  | .unlock t =>
    match s.stage t with
    | .stored => some { s with stage := update s.stage t .test }
    | _ => none
  | .exit t =>
    match s.stage t, s.todo t with
    | .test, [] => some s
    | _, _ => none

/-- The variable and no worker yet. -/
def start (v : A) : Adders T A where
  sum := v
  created := 0
  workers := ∅
  todo _ := []
  stage _ := .test

end Adders

/-- Nothing is lost: with what the workers have still to add, the variable holds what it held at
the start and all that they were given; and a value that was loaded is the present one. -/
structure Balanced (work : ℕ → List A) (v : A) (s : Adders T A) : Prop where
  total : s.sum + ∑ t ∈ s.workers, (s.todo t).sum = v + ∑ i ∈ Finset.range s.created, (work i).sum
  worker : ∀ t, s.stage t ≠ .test → t ∈ s.workers
  loaded : ∀ t w, s.stage t = .loaded w → w = s.sum

section

variable {work : ℕ → List A} {v : A} {s s' : Adders T A} {t : T}

theorem Balanced.start (work : ℕ → List A) (v : A) : Balanced work v (Adders.start (T := T) v) where
  total := rfl
  worker _ h := absurd rfl h
  loaded _ _ h := absurd h (by simp [Adders.start])

/-- When every list is used up, the variable holds all of it. -/
theorem Balanced.done (h : Balanced work v s) (hdone : ∀ t ∈ s.workers, s.todo t = []) :
    s.sum = v + ∑ i ∈ Finset.range s.created, (work i).sum := by
  have hzero : ∑ t ∈ s.workers, (s.todo t).sum = 0 := by
    refine Finset.sum_eq_zero fun t ht => ?_
    rw [hdone t ht]
    rfl
  rw [← h.total, hzero, add_zero]

variable [DecidableEq T]

/-- A move of a worker within its loop, without the store. -/
theorem Balanced.stage (h : Balanced work v s) {g : Stage A} (ht : t ∈ s.workers)
    (hg : ∀ w, g = .loaded w → w = s.sum) :
    Balanced work v { s with stage := update s.stage t g } where
  total := h.total
  worker u hu := by
    dsimp only at hu
    by_cases hut : u = t
    · rw [hut]
      exact ht
    · rw [update_of_ne hut] at hu
      exact h.worker u hu
  loaded u w hu := by
    dsimp only at hu
    by_cases hut : u = t
    · rw [hut, update_self] at hu
      exact hg w hu
    · rw [update_of_ne hut] at hu
      exact h.loaded u w hu

theorem sum_update_of_notMem {W : Finset T} {f : T → List A} (ht : t ∉ W) (l : List A) :
    ∑ u ∈ W, (update f t l u).sum = ∑ u ∈ W, (f u).sum := by
  refine Finset.sum_congr rfl fun u hu => ?_
  rw [update_of_ne]
  rintro rfl
  exact ht hu

/-- One worker's list, taken out of the sum. -/
theorem sum_update {W : Finset T} {f : T → List A} (ht : t ∈ W) (l : List A) :
    ∑ u ∈ W, (update f t l u).sum = l.sum + ∑ u ∈ W.erase t, (f u).sum := by
  rw [← Finset.add_sum_erase W _ ht, update_self, sum_update_of_notMem (Finset.notMem_erase t W)]

/-- A new worker brings its list with it. If the name was another worker's before, that one has
nothing left to add. -/
theorem Balanced.spawn (h : Balanced work v s) (ht : t ∈ s.workers → s.todo t = [])
    (hm : s.move work (.spawn t) = some s') : Balanced work v s' := by
  obtain rfl := Option.some.inj hm
  refine ⟨?_, fun u hu => ?_, fun u w hu => ?_⟩
  · dsimp only
    rw [sum_update (Finset.mem_insert_self t s.workers), Finset.sum_range_succ, ← add_assoc v,
      ← h.total]
    -- the rest is what the other workers have to add
    have hrest : ∑ u ∈ (insert t s.workers).erase t, (s.todo u).sum
        = ∑ u ∈ s.workers, (s.todo u).sum := by
      by_cases hmem : t ∈ s.workers
      · rw [Finset.insert_eq_of_mem hmem, ← Finset.add_sum_erase s.workers _ hmem, ht hmem,
          List.sum_nil, zero_add]
      · rw [Finset.erase_insert hmem]
    rw [hrest, add_comm (work s.created).sum, add_assoc]
  · dsimp only at hu ⊢
    by_cases hut : u = t
    · rw [hut]
      exact Finset.mem_insert_self t s.workers
    · rw [update_of_ne hut] at hu
      exact Finset.mem_insert_of_mem (h.worker u hu)
  · dsimp only at hu
    by_cases hut : u = t
    · rw [hut, update_self] at hu
      exact absurd hu (by simp)
    · rw [update_of_ne hut] at hu
      exact h.loaded u w hu

/-- A store adds one element to the variable and takes it off the list. -/
theorem Balanced.store (h : Balanced work v s)
    (halone : ∀ u w, s.stage u = .loaded w → u = t) (hm : s.move work (.store t) = some s') :
    Balanced work v s' := by
  rw [Adders.move] at hm
  split at hm
  · next w c rest hstage htodo =>
    obtain rfl := Option.some.inj hm
    obtain rfl := h.loaded t w hstage
    have ht : t ∈ s.workers := h.worker t (by rw [hstage]; simp)
    refine ⟨?_, fun u hu => ?_, fun u w hu => ?_⟩
    · dsimp only
      have htotal := h.total
      rw [← Finset.add_sum_erase s.workers _ ht, htodo, List.sum_cons] at htotal
      rw [sum_update ht, ← htotal, ← add_assoc, ← add_assoc, ← add_assoc]
    · dsimp only at hu ⊢
      by_cases hut : u = t
      · rw [hut]
        exact ht
      · rw [update_of_ne hut] at hu
        exact h.worker u hu
    · dsimp only at hu
      by_cases hut : u = t
      · rw [hut, update_self] at hu
        exact absurd hu (by simp)
      · rw [update_of_ne hut] at hu
        exact absurd (halone u w hu) hut
  · exact absurd hm (by simp)

/-- **No update is lost.** -/
theorem Balanced.move (h : Balanced work v s) {mv : Move T} (hm : s.move work mv = some s')
    (hspawn : ∀ t, mv = .spawn t → t ∈ s.workers → s.todo t = [])
    (hlock : ∀ t, mv = .lock t → t ∈ s.workers)
    (hstore : ∀ t, mv = .store t → ∀ u w, s.stage u = .loaded w → u = t) : Balanced work v s' := by
  cases mv with
  | spawn t => exact h.spawn (hspawn t rfl) hm
  | store t => exact h.store (hstore t rfl) hm
  | lock t =>
    rw [Adders.move] at hm
    split at hm
    · rw [← Option.some.inj hm]
      exact h.stage (hlock t rfl) (by simp)
    · exact absurd hm (by simp)
  | load t =>
    rw [Adders.move] at hm
    split at hm
    · next hstage =>
      rw [← Option.some.inj hm]
      exact h.stage (h.worker t (by rw [hstage]; simp)) fun w hw => (Stage.loaded.inj hw).symm
    · exact absurd hm (by simp)
  | unlock t =>
    rw [Adders.move] at hm
    split at hm
    · next hstage =>
      rw [← Option.some.inj hm]
      exact h.stage (h.worker t (by rw [hstage]; simp)) (by simp)
    · exact absurd hm (by simp)
  | exit t =>
    rw [Adders.move] at hm
    split at hm
    · rw [← Option.some.inj hm]
      exact h
    · exact absurd hm (by simp)

end

/-! ### Lists in strides -/

/-- `for (j = start; j < stop; j += step)`, for a positive step. -/
def strided (step stop : ℕ) (start : ℕ) : List ℕ :=
  if start < stop ∧ 0 < step then start :: strided step stop (start + step) else []
  termination_by stop - start

end SharedSum
