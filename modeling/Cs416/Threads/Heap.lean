import Cs416.Lib.Slots
import Cs416.Threads.Tcb

/-!
# The heap of the run queue

`MinHeap_t` with `heap_push` and `heap_pop`, and what they do to the multiset of threads in the
heap. The comparator is a parameter, as it is in the source; it may read the control blocks.

`threads` is an array of `MAX_THREADS` slots: a push into a full heap and a pop from an empty
one reach outside it, and there is no result.
-/

open Function Slots

namespace ThreadWorker

/-- `MinHeap_t`, its comparator apart. -/
structure MinHeap where
  threads : ℕ → TcbPtr
  size : ℕ

namespace MinHeap

/-- `init_heap`. -/
def init : MinHeap where
  threads _ := 0
  size := 0

/-- The threads in the heap. -/
def contents (h : MinHeap) : Multiset TcbPtr := slots h.threads h.size

/-- Exchanges two slots. -/
def swap (a : ℕ → TcbPtr) (i j : ℕ) : ℕ → TcbPtr := update (update a i (a j)) j (a i)

/-- `while (i > 0)` in `heap_push`, with a bound on the iterations. -/
def siftUp (cmp : TcbPtr → TcbPtr → ℤ) : ℕ → (ℕ → TcbPtr) → ℕ → (ℕ → TcbPtr)
  | 0, a, _ => a
  | fuel + 1, a, i =>
    if 0 < i then
      let parent := (i - 1) / 2
      if cmp (a i) (a parent) < 0 then siftUp cmp fuel (swap a i parent) parent
      else a
    else a

/-- `heap_push`. -/
def push (cmp : TcbPtr → TcbPtr → ℤ) (h : MinHeap) (thread : TcbPtr) : Option MinHeap :=
  if h.size < maxThreads then
    some
      { threads := siftUp cmp h.size (update h.threads h.size thread) h.size
        size := h.size + 1 }
  else none

/-- The child of `i`, or `i` itself, with which an iteration in `heap_pop` goes on. -/
def smallest (cmp : TcbPtr → TcbPtr → ℤ) (a : ℕ → TcbPtr) (size i : ℕ) : ℕ :=
  let left := 2 * i + 1
  let right := 2 * i + 2
  let s := if left < size ∧ cmp (a left) (a i) < 0 then left else i
  if right < size ∧ cmp (a right) (a s) < 0 then right else s

/-- `while (1)` in `heap_pop`, with a bound on the iterations. -/
def siftDown (cmp : TcbPtr → TcbPtr → ℤ) (size : ℕ) : ℕ → (ℕ → TcbPtr) → ℕ → (ℕ → TcbPtr)
  | 0, a, _ => a
  | fuel + 1, a, i =>
    let s := smallest cmp a size i
    if s = i then a else siftDown cmp size fuel (swap a i s) s

/-- `heap_pop`. -/
def pop (cmp : TcbPtr → TcbPtr → ℤ) (h : MinHeap) : Option (TcbPtr × MinHeap) :=
  if 0 < h.size then
    let size := h.size - 1
    some (h.threads 0,
      { threads := siftDown cmp size size (update h.threads 0 (h.threads size)) 0
        size := size })
  else none

variable {cmp : TcbPtr → TcbPtr → ℤ} {h h' : MinHeap} {a : ℕ → TcbPtr} {n i j : ℕ}
  {p : TcbPtr}

theorem slots_swap (hi : i < n) (hj : j < n) : slots (swap a i j) n = slots a n :=
  Slots.slots_swap hi hj

theorem slots_siftUp (fuel : ℕ) (hi : i < n) : slots (siftUp cmp fuel a i) n = slots a n := by
  induction fuel generalizing a i with
  | zero => rfl
  | succ fuel ih =>
    rw [siftUp]
    split
    · dsimp only
      split
      · rw [ih (by omega), slots_swap hi (by omega)]
      · rfl
    · rfl

theorem smallest_lt (hi : i < n) : smallest cmp a n i < n := by
  rw [smallest]
  split_ifs <;> omega

theorem slots_siftDown (fuel : ℕ) (hi : i < n) :
    slots (siftDown cmp n fuel a i) n = slots a n := by
  induction fuel generalizing a i with
  | zero => rfl
  | succ fuel ih =>
    rw [siftDown]
    split
    · rfl
    · rw [ih (smallest_lt hi), slots_swap hi (smallest_lt hi)]

/-- A push adds the thread. -/
theorem contents_push (hp : h.push cmp p = some h') : h'.contents = h.contents + {p} := by
  rw [push] at hp
  split at hp
  · rw [← Option.some.inj hp, contents]
    dsimp only
    rw [slots_siftUp _ (Nat.lt_succ_self _), slots_succ, slots_update_of_le (Nat.le_refl _),
      update_self]
    rfl
  · exact absurd hp (by simp)

theorem size_push (hp : h.push cmp p = some h') : h'.size = h.size + 1 := by
  rw [push] at hp
  split at hp
  · rw [← Option.some.inj hp]
  · exact absurd hp (by simp)

/-- A pop takes the thread it returns. -/
theorem contents_pop (hp : h.pop cmp = some (p, h')) : h'.contents + {p} = h.contents := by
  rw [pop] at hp
  split at hp
  · rename_i hsize
    obtain ⟨rfl, rfl⟩ := Prod.mk.inj (Option.some.inj hp)
    obtain ⟨n, hn⟩ := Nat.exists_eq_add_one.mpr hsize
    rw [contents, contents, hn, Nat.add_sub_cancel]
    dsimp only
    cases n with
    | zero => rw [slots_succ]; rfl
    | succ n =>
      rw [slots_siftDown _ (Nat.succ_pos n), slots_update (Nat.succ_pos n),
        slots_succ _ (n + 1)]
  · exact absurd hp (by simp)

theorem size_pop (hp : h.pop cmp = some (p, h')) : h'.size + 1 = h.size := by
  rw [pop] at hp
  split at hp
  · obtain ⟨-, rfl⟩ := Prod.mk.inj (Option.some.inj hp)
    dsimp only
    omega
  · exact absurd hp (by simp)

end MinHeap

end ThreadWorker
