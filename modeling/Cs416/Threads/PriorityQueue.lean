import Cs416.Threads.HeapOrder

/-!
# The heap is a priority queue

`heap_push` and `heap_pop` over every sequence of calls from `init_heap`, for every comparator
whose sign is a strict weak order. `HeapRun` keeps beside the heap the multiset of the threads
that were pushed and not yet popped; it never reads it off the array. `PriorityQueue` says what
the heap is to that multiset.

The loops of the two functions have a bound on their iterations in `siftUp` and `siftDown`.
`UpLoop` and `DownLoop` are the loops as the source has them, without a bound: such a loop ends
when one of them relates its start to its end, and the bounded loops reach that end
(`upLoop_siftUp`, `downLoop_siftDown`).
-/

open Function Slots BinaryHeap

namespace ThreadWorker

namespace MinHeap

/-! ### The loops without a bound -/

/-- `while (i > 0)` in `heap_push` ends with the array `b`. -/
inductive UpLoop (cmp : TcbPtr → TcbPtr → ℤ) : (ℕ → TcbPtr) → ℕ → (ℕ → TcbPtr) → Prop
  | root (a) : UpLoop cmp a 0 a
  | done {a i} (hi : 0 < i) (hc : ¬ cmp (a i) (a ((i - 1) / 2)) < 0) : UpLoop cmp a i a
  | swap {a b i} (hi : 0 < i) (hc : cmp (a i) (a ((i - 1) / 2)) < 0)
      (rest : UpLoop cmp (swap a i ((i - 1) / 2)) ((i - 1) / 2) b) : UpLoop cmp a i b

/-- `while (1)` in `heap_pop` ends with the array `b`. -/
inductive DownLoop (cmp : TcbPtr → TcbPtr → ℤ) (size : ℕ) :
    (ℕ → TcbPtr) → ℕ → (ℕ → TcbPtr) → Prop
  | done {a i} (hs : smallest cmp a size i = i) : DownLoop cmp size a i a
  | swap {a b i} (hs : smallest cmp a size i ≠ i)
      (rest : DownLoop cmp size (swap a i (smallest cmp a size i)) (smallest cmp a size i) b) :
      DownLoop cmp size a i b

/-! ### The runs of a heap -/

/-- The calls on one heap, from `init_heap` on: the multiset of the threads that were pushed and
not yet popped, and the heap. -/
inductive HeapRun (cmp : TcbPtr → TcbPtr → ℤ) : Multiset TcbPtr → MinHeap → Prop
  | init : HeapRun cmp 0 .init
  | push {c h h'} (run : HeapRun cmp c h) (t : TcbPtr) (hsize : h.size < maxThreads)
      (hp : h.push cmp t = some h') : HeapRun cmp (t ::ₘ c) h'
  | pop {c h h' t} (run : HeapRun cmp c h) (hsize : 0 < h.size)
      (hp : h.pop cmp = some (t, h')) : HeapRun cmp (c.erase t) h'

/-- The heap `h` is a priority queue of the threads in `c`. -/
structure PriorityQueue (cmp : TcbPtr → TcbPtr → ℤ) (c : Multiset TcbPtr) (h : MinHeap) :
    Prop where
  /-- `threads[0..size)` holds the threads that were pushed and not yet popped. -/
  contents : (Multiset.range h.size).map h.threads = c
  /-- No thread is less than its parent. -/
  order : ∀ i, 0 < i → i < h.size → ¬ cmp (h.threads i) (h.threads ((i - 1) / 2)) < 0
  /-- `heap_push` ends. -/
  push : h.size < maxThreads → ∀ t, ∃ h', h.push cmp t = some h' ∧
    UpLoop cmp (update h.threads h.size t) h.size h'.threads ∧ h'.size = h.size + 1
  /-- `heap_pop` ends, and returns a minimal one of these threads. -/
  pop : 0 < h.size → ∃ t h', h.pop cmp = some (t, h') ∧
    DownLoop cmp (h.size - 1) (update h.threads 0 (h.threads (h.size - 1))) 0 h'.threads ∧
      h'.size = h.size - 1 ∧ t ∈ c ∧ ∀ u ∈ c, ¬ cmp u t < 0

section

variable {cmp : TcbPtr → TcbPtr → ℤ} {κ : Type*} [LinearOrder κ] {key : TcbPtr → κ}
  {c : Multiset TcbPtr} {h h' : MinHeap} {a : ℕ → TcbPtr} {n i : ℕ} {t : TcbPtr}

/-- `i` decreases in every iteration, so `i` iterations are enough. -/
theorem upLoop_siftUp (fuel : ℕ) (hf : i ≤ fuel) : UpLoop cmp a i (siftUp cmp fuel a i) := by
  induction fuel generalizing a i with
  | zero =>
    obtain rfl := Nat.le_zero.mp hf
    exact .root a
  | succ fuel ih =>
    rw [siftUp]
    split
    · next hpos =>
      dsimp only
      split
      · next hc => exact .swap hpos hc (ih (by omega))
      · next hc => exact .done hpos hc
    · next hpos =>
      obtain rfl : i = 0 := by omega
      exact .root a

theorem smallest_of_le (hi : n ≤ i) : smallest cmp a n i = i := by
  rw [smallest, if_neg fun hc => absurd hc.1 (by omega), if_neg fun hc => absurd hc.1 (by omega)]

theorem lt_smallest (hs : smallest cmp a n i ≠ i) : i < smallest cmp a n i := by
  unfold smallest at hs ⊢
  dsimp only at hs ⊢
  split_ifs at hs ⊢
  · omega
  · omega
  · omega
  · exact absurd rfl hs

/-- `i` increases in every iteration and stays below the size. -/
theorem downLoop_siftDown (fuel : ℕ) (hf : n ≤ fuel + i) :
    DownLoop cmp n a i (siftDown cmp n fuel a i) := by
  induction fuel generalizing a i with
  | zero => exact .done (smallest_of_le (by omega))
  | succ fuel ih =>
    rw [siftDown]
    split
    · next hs => exact .done hs
    · next hs =>
      have hlt := lt_smallest hs
      exact .swap hs (ih (by omega))

/-- A heap that is ordered by the key of its comparator is a priority queue. -/
theorem priorityQueue_of_ordered (hkey : ∀ a b, cmp a b < 0 ↔ key a < key b)
    (hc : h.contents = c) (ho : h.Ordered key) : PriorityQueue cmp c h where
  contents := hc
  order i hpos hi hlt := absurd ((hkey _ _).mp hlt) (not_lt.mpr (ho i hpos hi))
  push hsize t := ⟨_, if_pos hsize, upLoop_siftUp _ le_rfl, rfl⟩
  pop hsize := by
    have hp : h.pop cmp = some (h.threads 0, ⟨siftDown cmp (h.size - 1) (h.size - 1)
        (update h.threads 0 (h.threads (h.size - 1))) 0, h.size - 1⟩) := if_pos hsize
    obtain ⟨-, hmin⟩ := ordered_pop hp (fun a _ b _ => hkey a b) ho
    refine ⟨_, _, hp, downLoop_siftDown _ le_rfl, rfl, ?_, fun u hu hlt => ?_⟩
    · rw [← hc]
      exact mem_slots hsize
    · rw [← hc] at hu
      exact absurd ((hkey _ _).mp hlt) (not_lt.mpr (hmin u hu))

/-- Every run keeps the heap ordered, with the threads that were pushed and not yet popped. -/
theorem HeapRun.ordered (hkey : ∀ a b, cmp a b < 0 ↔ key a < key b) (hr : HeapRun cmp c h) :
    h.contents = c ∧ h.Ordered key := by
  induction hr with
  | init => exact ⟨rfl, fun i _ hi => absurd hi (Nat.not_lt_zero i)⟩
  | push _ t _ hp ih =>
    obtain ⟨rfl, ho⟩ := ih
    refine ⟨?_, ordered_push hp (fun a _ b _ => hkey a b) ho⟩
    rw [contents_push hp, Multiset.add_comm, Multiset.singleton_add]
  | pop _ _ hp ih =>
    obtain ⟨rfl, ho⟩ := ih
    refine ⟨?_, (ordered_pop hp (fun a _ b _ => hkey a b) ho).1⟩
    rw [← contents_pop hp, Multiset.add_comm, Multiset.singleton_add, Multiset.erase_cons_head]

/-- **The heap is a priority queue**, for every comparator whose sign is a strict weak order. -/
theorem heap_is_priority_queue (hcmp : IsStrictWeakOrder TcbPtr fun a b => cmp a b < 0)
    (hr : HeapRun cmp c h) : PriorityQueue cmp c h := by
  obtain ⟨κ, _, key, hkey⟩ := exists_key fun a b => cmp a b < 0
  obtain ⟨hc, ho⟩ := hr.ordered hkey
  exact priorityQueue_of_ordered hkey hc ho

end

/-- The comparison of numbers, as a comparator. -/
def byNumber (a b : TcbPtr) : ℤ := a - b

theorem byNumber_order : IsStrictWeakOrder TcbPtr fun a b => byNumber a b < 0 := by
  have hrel : (fun a b => byNumber a b < 0) = fun a b : ℕ => a < b := by
    funext a b
    simp [byNumber]
  rw [hrel]
  exact isStrictWeakOrder_of_isOrderConnected

/-- Two pushes out of order and a pop. -/
theorem heap_is_priority_queue_after_pop :
    ∃ h, HeapRun byNumber (({3, 5} : Multiset TcbPtr).erase 3) h ∧
      PriorityQueue byNumber (({3, 5} : Multiset TcbPtr).erase 3) h := by
  have h5 : HeapRun byNumber {5} _ := .push .init 5 (by decide) rfl
  have h3 : HeapRun byNumber {3, 5} _ := .push h5 3 (by decide) rfl
  have hp : HeapRun byNumber (({3, 5} : Multiset TcbPtr).erase 3) _ := .pop h3 (by decide) rfl
  exact ⟨_, hp, heap_is_priority_queue byNumber_order hp⟩

end MinHeap

end ThreadWorker
