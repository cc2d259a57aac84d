import Cs416.Threads.Heap

/-!
# The heap in memory

`MinHeap_t` with an `int` for its size and an array that an index may leave: `heap_push` and
`heap_pop` as C runs them, which check neither. Each returns the indices of `threads` it used.
There is no result where a comparator gets a `NULL` pointer.

`Holds` relates such a heap to a `MinHeap`, which has no result where the array is left. With
room for one more thread a push is the same on both, with a thread in the heap a pop is, and
otherwise the indices leave the array (`pushSafe_iff`, `popSafe_iff`).
-/

open Function

namespace ThreadWorker

/-- `MinHeap_t` in memory, its comparator apart. An index outside `0 … MAX_THREADS - 1` reaches
what lies around the array. -/
structure RawHeap where
  threads : ℤ → Option TcbPtr
  size : ℤ

namespace RawHeap

/-- What `init_heap` leaves. -/
structure IsInit (R : RawHeap) : Prop where
  size : R.size = 0
  threads : ∀ i, 0 ≤ i → i < maxThreads → R.threads i = none

/-- Exchanges two slots. -/
def swap (a : ℤ → Option TcbPtr) (i j : ℤ) : ℤ → Option TcbPtr := update (update a i (a j)) j (a i)

/-- `while (i > 0)` in `heap_push`, with a bound on the iterations: the indices it used, and the
array. -/
def siftUp (cmp : TcbPtr → TcbPtr → ℤ) :
    ℕ → (ℤ → Option TcbPtr) → ℤ → Option (List ℤ × (ℤ → Option TcbPtr))
  | 0, a, _ => some ([], a)
  | fuel + 1, a, i =>
    if 0 < i then
      let parent := (i - 1) / 2
      match a i, a parent with
      | some child, some above =>
        if cmp child above < 0 then
          (siftUp cmp fuel (swap a i parent) parent).map fun x => (i :: parent :: x.1, x.2)
        else some ([i, parent], a)
      | _, _ => none
    else some ([], a)

/-- `heap_push` -/
def push (cmp : TcbPtr → TcbPtr → ℤ) (R : RawHeap) (thread : TcbPtr) :
    Option (List ℤ × RawHeap) :=
  (siftUp cmp R.size.toNat (update R.threads R.size (some thread)) R.size).map fun x =>
    (R.size :: x.1, ⟨x.2, R.size + 1⟩)

/-- One of the two comparisons in an iteration of `heap_pop`: `child` is taken for `smallest` if
it is in the heap and less. -/
def smaller (cmp : TcbPtr → TcbPtr → ℤ) (a : ℤ → Option TcbPtr) (size child smallest : ℤ) :
    Option (List ℤ × ℤ) :=
  if child < size then
    match a child, a smallest with
    | some c, some t => some ([child, smallest], if cmp c t < 0 then child else smallest)
    | _, _ => none
  else some ([], smallest)

/-- The index with which an iteration in `heap_pop` goes on. -/
def smallest (cmp : TcbPtr → TcbPtr → ℤ) (a : ℤ → Option TcbPtr) (size i : ℤ) :
    Option (List ℤ × ℤ) :=
  (smaller cmp a size (2 * i + 1) i).bind fun l =>
    (smaller cmp a size (2 * i + 2) l.2).map fun r => (l.1 ++ r.1, r.2)

/-- `while (1)` in `heap_pop`, with a bound on the iterations. -/
def siftDown (cmp : TcbPtr → TcbPtr → ℤ) (size : ℤ) :
    ℕ → (ℤ → Option TcbPtr) → ℤ → Option (List ℤ × (ℤ → Option TcbPtr))
  | 0, a, _ => some ([], a)
  | fuel + 1, a, i =>
    (smallest cmp a size i).bind fun s =>
      if s.2 = i then some (s.1, a)
      else
        (siftDown cmp size fuel (swap a i s.2) s.2).map fun x => (s.1 ++ i :: s.2 :: x.1, x.2)

/-- `heap_pop` -/
def pop (cmp : TcbPtr → TcbPtr → ℤ) (R : RawHeap) :
    Option (List ℤ × Option TcbPtr × RawHeap) :=
  let size := R.size - 1
  (siftDown cmp size size.toNat (update R.threads 0 (R.threads size)) 0).map fun x =>
    (0 :: size :: x.1, R.threads 0, ⟨x.2, size⟩)

/-! ### Staying inside the array -/

/-- `0 ≤ size ≤ MAX_THREADS` -/
def Within (R : RawHeap) : Prop := 0 ≤ R.size ∧ R.size ≤ maxThreads

/-- The indices lie in the array. -/
def InArray (indices : List ℤ) : Prop := ∀ i ∈ indices, 0 ≤ i ∧ i < maxThreads

/-- `heap_push` stays inside the array. -/
def PushSafe (R : RawHeap) (cmp : TcbPtr → TcbPtr → ℤ) (thread : TcbPtr) : Prop :=
  R.Within ∧ ∃ indices R', R.push cmp thread = some (indices, R') ∧ InArray indices ∧ R'.Within

/-- `heap_pop` stays inside the array, and an empty heap stays empty and gives `NULL`. -/
def PopSafe (R : RawHeap) (cmp : TcbPtr → TcbPtr → ℤ) : Prop :=
  R.Within ∧ ∃ indices p R', R.pop cmp = some (indices, p, R') ∧ InArray indices ∧ R'.Within ∧
    (R.size = 0 → p = none ∧ R'.size = 0)

/-! ### The heap it holds -/

/-- The first `n` slots of the array. -/
def Agree (A : ℤ → Option TcbPtr) (a : ℕ → TcbPtr) (n : ℕ) : Prop :=
  ∀ i < n, A (i : ℤ) = some (a i)

/-- The memory holds the heap `h`. -/
structure Holds (R : RawHeap) (h : MinHeap) : Prop where
  size : R.size = h.size
  agree : Agree R.threads h.threads h.size

variable (cmp : TcbPtr → TcbPtr → ℤ) {R : RawHeap} {h : MinHeap} {A : ℤ → Option TcbPtr}
  {a : ℕ → TcbPtr} {n i j : ℕ} {t : TcbPtr}

theorem IsInit.holds (hR : R.IsInit) : R.Holds .init :=
  ⟨hR.size, fun _ hi => absurd hi (Nat.not_lt_zero _)⟩

theorem IsInit.within (hR : R.IsInit) : R.Within := by
  rw [Within, hR.size]
  decide

theorem Agree.update (ha : Agree A a n) (i : ℕ) (t : TcbPtr) :
    Agree (update A i (some t)) (Function.update a i t) n := by
  intro k hk
  rw [update_apply, update_apply]
  simp only [Int.natCast_inj]
  split
  · rfl
  · exact ha k hk

theorem Agree.swap (ha : Agree A a n) (hi : i < n) (hj : j < n) :
    Agree (swap A i j) (MinHeap.swap a i j) n := by
  rw [RawHeap.swap, ha i hi, ha j hj]
  exact (ha.update i (a j)).update j (a i)

/-- The parent of a slot, as an `int`. -/
theorem parent_cast (hi : 0 < i) : ((i : ℤ) - 1) / 2 = ((i - 1) / 2 : ℕ) := by omega

theorem siftUp_agree (fuel : ℕ) (ha : Agree A a n) (hi : i < n) :
    ∃ indices A', siftUp cmp fuel A i = some (indices, A') ∧
      (∀ k ∈ indices, 0 ≤ k ∧ k < (n : ℤ)) ∧ Agree A' (MinHeap.siftUp cmp fuel a i) n := by
  -- each level reads the slot and its parent, both below `n`
  induction fuel generalizing A a i with
  | zero => exact ⟨[], A, rfl, by simp, ha⟩
  | succ fuel ih =>
    rw [siftUp, MinHeap.siftUp]
    by_cases hpos : 0 < i
    · have hp : (i - 1) / 2 < n := by omega
      rw [if_pos (by omega), if_pos hpos, parent_cast hpos, ha i hi]
      dsimp only
      rw [ha _ hp]
      dsimp only
      split
      · obtain ⟨indices, A', heq, hin, ha'⟩ := ih (ha.swap hi hp) hp
        rw [heq]
        refine ⟨_, A', rfl, fun k hk => ?_, ha'⟩
        rcases List.mem_cons.mp hk with rfl | hk
        · omega
        rcases List.mem_cons.mp hk with rfl | hk
        · omega
        exact hin k hk
      · refine ⟨_, A, rfl, fun k hk => ?_, ha⟩
        simp only [List.mem_cons, List.not_mem_nil, or_false] at hk
        omega
    -- the root: no access
    · rw [if_neg (by omega), if_neg hpos]
      exact ⟨[], A, rfl, by simp, ha⟩

theorem smaller_agree (ha : Agree A a n) (hj : j < n) :
    ∃ indices, smaller cmp A n (i : ℤ) j
        = some (indices, ((if i < n ∧ cmp (a i) (a j) < 0 then i else j : ℕ) : ℤ)) ∧
      ∀ k ∈ indices, 0 ≤ k ∧ k < (n : ℤ) := by
  rw [smaller]
  by_cases hi : i < n
  · rw [if_pos (by omega), ha i hi, ha j hj]
    refine ⟨[(i : ℤ), j], ?_, fun k hk => ?_⟩
    · dsimp only
      simp only [hi, true_and]
      split <;> rfl
    · simp only [List.mem_cons, List.not_mem_nil, or_false] at hk
      omega
  · rw [if_neg (by omega), if_neg (fun hc => hi hc.1)]
    exact ⟨[], rfl, by simp⟩

theorem smallest_agree (ha : Agree A a n) (hi : i < n) :
    ∃ indices, smallest cmp A n i = some (indices, (MinHeap.smallest cmp a n i : ℤ)) ∧
      ∀ k ∈ indices, 0 ≤ k ∧ k < (n : ℤ) := by
  obtain ⟨is, hl, hin⟩ := smaller_agree cmp (i := 2 * i + 1) ha hi
  have hl' : smaller cmp A n (2 * (i : ℤ) + 1) i = _ := hl
  set l := if 2 * i + 1 < n ∧ cmp (a (2 * i + 1)) (a i) < 0 then 2 * i + 1 else i with hldef
  have hln : l < n := by
    rw [hldef]
    split <;> omega
  obtain ⟨is', hr, hin'⟩ := smaller_agree cmp (i := 2 * i + 2) ha hln
  have hr' : smaller cmp A n (2 * (i : ℤ) + 2) l = _ := hr
  refine ⟨is ++ is', ?_, fun k hk => ?_⟩
  · rw [smallest, hl', Option.bind_some, hr']
    rfl
  · rcases List.mem_append.mp hk with hk | hk
    · exact hin k hk
    · exact hin' k hk

theorem siftDown_agree (fuel : ℕ) (ha : Agree A a n) (hi : i < n) :
    ∃ indices A', siftDown cmp n fuel A i = some (indices, A') ∧
      (∀ k ∈ indices, 0 ≤ k ∧ k < (n : ℤ)) ∧ Agree A' (MinHeap.siftDown cmp n fuel a i) n := by
  induction fuel generalizing A a i with
  | zero => exact ⟨[], A, rfl, by simp, ha⟩
  | succ fuel ih =>
    obtain ⟨is, hs, hin⟩ := smallest_agree cmp ha hi
    have hsn : MinHeap.smallest cmp a n i < n := MinHeap.smallest_lt hi
    rw [siftDown, MinHeap.siftDown, hs, Option.bind_some]
    dsimp only
    simp only [Int.natCast_inj]
    split
    · exact ⟨is, A, rfl, hin, ha⟩
    · obtain ⟨is', A', heq, hin', ha'⟩ := ih (ha.swap hi hsn) hsn
      rw [heq]
      refine ⟨_, A', rfl, fun k hk => ?_, ha'⟩
      rcases List.mem_append.mp hk with hk | hk
      · exact hin k hk
      rcases List.mem_cons.mp hk with rfl | hk
      · omega
      rcases List.mem_cons.mp hk with rfl | hk
      · omega
      exact hin' k hk

/-- **A push with room** does what it does to the heap it holds. -/
theorem Holds.push (hR : R.Holds h) (hroom : h.size < maxThreads) :
    ∃ indices R' h', R.push cmp t = some (indices, R') ∧ InArray indices ∧
      h.push cmp t = some h' ∧ R'.Holds h' := by
  have ha : Agree (update R.threads (h.size : ℤ) (some t)) (update h.threads h.size t)
      (h.size + 1) := by
    intro k hk
    rw [update_apply, update_apply]
    simp only [Int.natCast_inj]
    split
    · rfl
    · exact hR.agree k (by omega)
  obtain ⟨is, A', heq, hin, ha'⟩ := siftUp_agree cmp h.size ha (Nat.lt_succ_self _)
  refine ⟨h.size :: is, ⟨A', h.size + 1⟩, _, ?_, fun k hk => ?_, if_pos hroom, ⟨rfl, ha'⟩⟩
  · rw [RawHeap.push, hR.size, Int.toNat_natCast, heq]
    rfl
  · rcases List.mem_cons.mp hk with rfl | hk
    · omega
    · have := hin k hk
      omega

/-- **A pop with a thread in the heap** does what it does to the heap it holds. -/
theorem Holds.pop (hR : R.Holds h) (hpos : 0 < h.size) (hle : h.size ≤ maxThreads) :
    ∃ indices R' p h', R.pop cmp = some (indices, some p, R') ∧ InArray indices ∧
      h.pop cmp = some (p, h') ∧ R'.Holds h' := by
  -- `size` is at least one, so the last slot is an element of the array
  obtain ⟨n, hn⟩ := Nat.exists_eq_add_one.mpr hpos
  have hsize : R.size - 1 = n := by
    rw [hR.size, hn]
    omega
  have hlast : R.threads (n : ℤ) = some (h.threads n) := hR.agree n (by omega)
  have ha : Agree (update R.threads 0 (some (h.threads n))) (update h.threads 0 (h.threads n)) n :=
    Agree.update (fun k hk => hR.agree k (by omega)) 0 (h.threads n)
  -- the sift only looks at what is left of the heap, which may be empty
  obtain ⟨is, A', heq, hin, ha'⟩ : ∃ is A',
      siftDown cmp n n (update R.threads 0 (some (h.threads n))) 0 = some (is, A') ∧
      (∀ k ∈ is, 0 ≤ k ∧ k < (n : ℤ)) ∧
      Agree A' (MinHeap.siftDown cmp n n (update h.threads 0 (h.threads n)) 0) n := by
    rcases Nat.eq_zero_or_pos n with rfl | hn0
    · exact ⟨[], _, rfl, by simp, fun k hk => absurd hk (Nat.not_lt_zero k)⟩
    · exact siftDown_agree cmp n ha hn0
  refine ⟨0 :: (n : ℤ) :: is, ⟨A', n⟩, h.threads 0, ⟨_, n⟩, ?_, fun k hk => ?_, ?_, ⟨rfl, ha'⟩⟩
  · rw [RawHeap.pop, hsize, hlast, Int.toNat_natCast, heq, show R.threads 0 = some (h.threads 0) from
      hR.agree 0 hpos]
    rfl
  · rcases List.mem_cons.mp hk with rfl | hk
    · exact ⟨le_rfl, by decide⟩
    rcases List.mem_cons.mp hk with rfl | hk
    · omega
    · have := hin k hk
      omega
  · rw [MinHeap.pop, if_pos hpos, hn]
    rfl

theorem Holds.within (hR : R.Holds h) (hle : h.size ≤ maxThreads) : R.Within := by
  rw [Within, hR.size]
  omega

/-- A push is safe when the heap has room for it. -/
theorem Holds.pushSafe_iff (hR : R.Holds h) (hle : h.size ≤ maxThreads) :
    R.PushSafe cmp t ↔ h.size < maxThreads := by
  constructor
  · -- the first index is the size
    rintro ⟨-, is, R', hpush, hin, -⟩
    obtain ⟨x, -, hx⟩ := Option.map_eq_some_iff.mp hpush
    obtain ⟨rfl, -⟩ := Prod.mk.inj hx
    have hlt := (hin _ List.mem_cons_self).2
    rw [hR.size] at hlt
    omega
  · intro hroom
    obtain ⟨is, R', h', hpush, hin, hp, hR'⟩ := hR.push cmp (t := t) hroom
    refine ⟨hR.within hle, is, R', hpush, hin, hR'.within ?_⟩
    rw [MinHeap.size_push hp]
    exact hroom

/-- A pop is safe when the heap is not empty. -/
theorem Holds.popSafe_iff (hR : R.Holds h) (hle : h.size ≤ maxThreads) :
    R.PopSafe cmp ↔ 0 < h.size := by
  constructor
  · -- the second index is one below the size
    rintro ⟨-, is, p, R', hpop, hin, -⟩
    obtain ⟨x, -, hx⟩ := Option.map_eq_some_iff.mp hpop
    obtain ⟨rfl, -⟩ := Prod.mk.inj hx
    have hge := (hin _ (List.mem_cons_of_mem _ List.mem_cons_self)).1
    rw [hR.size] at hge
    omega
  · intro hpos
    obtain ⟨is, R', p, h', hpop, hin, hp, hR'⟩ := hR.pop cmp hpos hle
    have hsize := MinHeap.size_pop hp
    refine ⟨hR.within hle, is, some p, R', hpop, hin, hR'.within (by omega), fun hzero => ?_⟩
    rw [hR.size] at hzero
    omega

end RawHeap

end ThreadWorker
