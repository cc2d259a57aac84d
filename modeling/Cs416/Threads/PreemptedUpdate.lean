import Cs416.Threads.Heap
import Cs416.Threads.LinkedQueue

/-!
# Run-queue updates that a tick interrupts

`add_to_scheduler` runs with the timer unmasked, so a tick can come between two statements of
`enqueue` or `heap_push`. The handler switches to `schedule()`, which adds the preempted thread
to the same run queue; the scheduler and the threads it dispatches go on adding and taking
threads, each time as a whole call, until the preempted thread is dispatched again and its call
performs the statements that are left.

`Kept` says that the run queue then holds what it should. For the linked queue it is decided by
the statement at which the tick came and, between the test of `tail` and the store it guards,
by whether the queue is empty then and when the call resumes (`enqueue_preempted`). A push into
the heap is right if, when it resumes, the slots it is about to touch are those it has already
decided about (`push_preempted`).
-/

open Function Slots

namespace ThreadWorker

/-- What happens to the run queue while the call is preempted. -/
inductive QueueOp
  /-- `add_to_scheduler(p)` -/
  | add (p : TcbPtr)
  /-- `dequeue` or `heap_pop` -/
  | take
  deriving DecidableEq, Repr

/-- The threads added. -/
def added : List QueueOp → Multiset TcbPtr
  | [] => 0
  | .add p :: ops => {p} + added ops
  | .take :: ops => added ops

namespace LinkedQueue

/-- The operations on a linked queue, and the threads they remove. -/
def run : List QueueOp → LinkedQueue → Option (LinkedQueue × List TcbPtr)
  | [], q => some (q, [])
  | .add p :: ops, q => (q.enqueue p).bind (run ops)
  | .take :: ops, q =>
    (run ops q.dequeue.2).map fun (q', removed) => (q', q.dequeue.1.toList ++ removed)

/-- `enqueue(queue, x)`, preempted after `k` statements, while `ops` happen. -/
def preempted (q : LinkedQueue) (x : TcbPtr) (k : ℕ) (ops : List QueueOp) :
    Option (LinkedQueue × List TcbPtr) :=
  (enqueueSteps x k (.malloc, q)).bind fun (pc, q₁) =>
    (run ops q₁).bind fun (q₂, removed) =>
      (enqueueSteps x enqueueLength (pc, q₂)).map fun (_, q₃) => (q₃, removed)

end LinkedQueue

/-- The operations on the list a queue spells. -/
def QueueOp.onList : List QueueOp → List TcbPtr → List TcbPtr × List TcbPtr
  | [], l => (l, [])
  | .add p :: ops, l => onList ops (l ++ [p])
  | .take :: ops, l =>
    let (l', removed) := onList ops l.tail
    (l', l.head?.toList ++ removed)

namespace LinkedQueue

variable {q : LinkedQueue} {as : List ℕ} {x p : TcbPtr} {ops : List QueueOp} {c : ℕ}

/-- The threads the nodes carry. -/
def data (q : LinkedQueue) (as : List ℕ) : List TcbPtr := as.map fun a => (q.node a).data

/-- The operations act as on the list, and leave a private node alone. -/
theorem Holds.run (h : q.Holds as) (ops : List QueueOp) :
    ∃ q' as', LinkedQueue.run ops q = some (q', (QueueOp.onList ops (q.data as)).2) ∧
      q'.Holds as' ∧ q'.data as' = (QueueOp.onList ops (q.data as)).1 ∧
      ∀ c, Private q as c → Private q' as' c ∧ q'.node c = q.node c := by
  induction ops generalizing q as with
  | nil => exact ⟨q, as, rfl, h, rfl, fun c hc => ⟨hc, rfl⟩⟩
  | cons op ops ih =>
    cases op with
    -- `enqueue` takes a node from beyond `brk`, where no private node is
    | add p =>
      obtain ⟨q₁, hq₁, h₁, hbrk, hnew, hold, hother⟩ := h.enqueue p
      have hdata : q₁.data (as ++ [q.brk]) = q.data as ++ [p] := by
        rw [data, List.map_append, List.map_singleton, hnew]
        exact congrArg (· ++ [p]) (List.map_congr_left hold)
      obtain ⟨q', as', hrun, h', hd, hpriv⟩ := ih h₁
      rw [hdata] at hrun hd
      refine ⟨q', as', ?_, h', hd, fun c hc => ?_⟩
      · rw [LinkedQueue.run, LinkedQueue.enqueue, hq₁]
        exact hrun
      · have hcq : c ≠ q.brk := Nat.ne_of_lt hc.allocated
        obtain ⟨hp', hn⟩ := hpriv c ⟨Nat.lt_trans hc.allocated hbrk, by simp [hc.notMem, hcq]⟩
        exact ⟨hp', hn.trans (hother c hc.notMem hcq)⟩
    -- `dequeue` writes to no node
    | take =>
      obtain ⟨h₁, hhead, hnode, hbrk⟩ := h.dequeue
      have hdata : q.dequeue.2.data as.tail = (q.data as).tail := by
        rw [data, data, hnode, List.map_tail]
      obtain ⟨q', as', hrun, h', hd, hpriv⟩ := ih h₁
      rw [hdata] at hrun hd
      refine ⟨q', as', ?_, h', hd, fun c hc => ?_⟩
      · rw [LinkedQueue.run, hrun, hhead, Option.map_some, QueueOp.onList]
        dsimp only
        rw [data, List.head?_map]
      · obtain ⟨hp', hn⟩ := hpriv c
          ⟨by rw [hbrk]; exact hc.allocated, fun hmem => hc.notMem (List.mem_of_mem_tail hmem)⟩
        exact ⟨hp', by rw [hn, hnode]⟩

/-- The call has not tested `tail` yet: its node, if it has one, is its own. -/
inductive Untested (q : LinkedQueue) (as : List ℕ) (x : TcbPtr) : EnqueuePc → Prop
  | malloc : Untested q as x .malloc
  | setData {c : ℕ} : Private q as c → Untested q as x (.setData c)
  | setNext {c : ℕ} : Private q as c → (q.node c).data = x → Untested q as x (.setNext c)
  | testTail {c : ℕ} : Private q as c → q.node c = ⟨x, none⟩ → Untested q as x (.testTail c)

/-- The first three statements do not touch the queue. -/
theorem Holds.untested (h : q.Holds as) (x : TcbPtr) {k : ℕ} (hk : k ≤ 3) :
    ∃ pc q₁, enqueueSteps x k (.malloc, q) = some (pc, q₁) ∧ q₁.Holds as ∧
      q₁.data as = q.data as ∧ q₁.tail = q.tail ∧ Untested q₁ as x pc ∧
      (k = 3 → pc = .testTail q.brk) := by
  obtain ⟨hm, hp⟩ := h.malloc
  have hs := hm.store hp.notMem { q.node q.brk with data := x }
  have hdata : ∀ q₁ : LinkedQueue, (∀ b, b ≠ q.brk → q₁.node b = q.node b) →
      q₁.data as = q.data as := fun q₁ hq₁ => List.map_congr_left fun b hb => by
    rw [hq₁ b fun hbq => hp.notMem (hbq ▸ hb)]
  have hk : k = 0 ∨ k = 1 ∨ k = 2 ∨ k = 3 := by omega
  rcases hk with rfl | rfl | rfl | rfl
  · exact ⟨.malloc, q, rfl, h, rfl, rfl, .malloc, by simp⟩
  · exact ⟨.setData q.brk, _, rfl, hm, rfl, rfl, .setData hp, by simp⟩
  · refine ⟨.setNext q.brk, _, rfl, hs, hdata _ fun b hb => update_of_ne hb _ _, rfl,
      .setNext ⟨hp.allocated, hp.notMem⟩ ?_, by simp⟩
    simp
  · refine ⟨.testTail q.brk, _, enqueueSteps_three x q, hs.store hp.notMem ⟨x, none⟩,
      hdata _ fun b hb => ?_, rfl, .testTail ⟨hp.allocated, hp.notMem⟩ (update_self _ _ _),
      fun _ => rfl⟩
    dsimp only
    rw [update_of_ne hb, update_of_ne hb]

/-- A call that resumes before its test of `tail` appends to whatever queue it finds. -/
theorem Holds.resume (h : q.Holds as) {pc : EnqueuePc} (hpc : Untested q as x pc) :
    ∃ q', enqueueSteps x enqueueLength (pc, q) = some (.done, q') ∧
      q'.Spells (q.data as ++ [x]) := by
  -- from the test of `tail` on
  have htest : ∀ {q : LinkedQueue} {c : ℕ} (n : ℕ), q.Holds as → Private q as c →
      q.node c = ⟨x, none⟩ → ∃ q', enqueueSteps x (3 + n) (.testTail c, q) = some (.done, q') ∧
        q'.Spells (q.data as ++ [x]) := by
    intro q c n h hc hnode
    obtain ⟨q', hq', h', -, hdata, -⟩ :=
      h.steps_testTail hc.notMem hc.allocated (by rw [hnode]) x
    refine ⟨q', by rw [enqueueSteps_add, hq', Option.bind_some, enqueueSteps_done], ?_⟩
    have hd : q.data as ++ [x] = q'.data (as ++ [c]) := by
      simp only [data, hdata, List.map_append, List.map_singleton, hnode]
    rw [hd]
    exact h'.spells
  have hstore : ∀ {q : LinkedQueue} {c : ℕ} (n : Node), c ∉ as →
      ({ q with node := update q.node c n } : LinkedQueue).data as = q.data as := by
    intro q c n hc
    refine List.map_congr_left fun b hb => ?_
    dsimp only
    rw [update_of_ne fun hbc : b = c => hc (hbc ▸ hb)]
  cases hpc with
  | malloc =>
    obtain ⟨_, q₁, hq₁, h₁, hd₁, -, hu, hpc⟩ := h.untested x (Nat.le_refl 3)
    obtain rfl := hpc rfl
    cases hu with
    | testTail hc hnode =>
      obtain ⟨q', hq', hspells⟩ := htest 0 h₁ hc hnode
      refine ⟨q', ?_, hd₁ ▸ hspells⟩
      rw [show enqueueLength = 3 + (3 + 0) from rfl, enqueueSteps_add, hq₁, Option.bind_some, hq']
  | @setData c hc =>
    have hs := h.store hc.notMem { q.node c with data := x }
    obtain ⟨q', hq', hspells⟩ := htest 1 (hs.store hc.notMem ⟨x, none⟩)
      ⟨hc.allocated, hc.notMem⟩ (update_self _ _ _)
    rw [hstore _ hc.notMem, hstore _ hc.notMem] at hspells
    refine ⟨q', ?_, hspells⟩
    rw [← hq', show enqueueLength = 2 + (3 + 1) from rfl, enqueueSteps_add]
    simp only [enqueueSteps, enqueueStep, Option.bind_some, update_self]
  | @setNext c hc hx =>
    obtain ⟨q', hq', hspells⟩ := htest 2 (h.store hc.notMem ⟨x, none⟩)
      ⟨hc.allocated, hc.notMem⟩ (update_self _ _ _)
    rw [hstore _ hc.notMem] at hspells
    refine ⟨q', ?_, hspells⟩
    rw [← hq', show enqueueLength = 1 + (3 + 2) from rfl, enqueueSteps_add]
    simp only [enqueueSteps, enqueueStep, Option.bind_some, hx]
  | testTail hc hnode => exact htest 3 h hc hnode

end LinkedQueue

/-- The statements of `heap_push`, with its local variables. -/
inductive PushPc
  /-- `int i = heap->size` -/
  | readSize
  /-- `heap->threads[i] = thread` -/
  | storeThread (i : ℕ)
  /-- `heap->size++` -/
  | incSize (i : ℕ)
  /-- `while (i > 0)`, and the comparison with the parent -/
  | loop (i : ℕ)
  /-- `tcb_t *temp = heap->threads[i]` -/
  | readTemp (i : ℕ)
  /-- `heap->threads[i] = heap->threads[parent]` -/
  | moveParent (i : ℕ) (temp : TcbPtr)
  /-- `heap->threads[parent] = temp`, and `i = parent` -/
  | storeTemp (i : ℕ) (temp : TcbPtr)
  | done
  deriving DecidableEq, Repr

def parent (i : ℕ) : ℕ := (i - 1) / 2

namespace MinHeap

variable (cmp : TcbPtr → TcbPtr → ℤ) (x : TcbPtr)

/-- One statement of `heap_push(heap, x)`. -/
def pushStep : PushPc × MinHeap → PushPc × MinHeap
  | (.readSize, h) => (.storeThread h.size, h)
  | (.storeThread i, h) => (.incSize i, { h with threads := update h.threads i x })
  | (.incSize i, h) => (.loop i, { h with size := h.size + 1 })
  | (.loop i, h) =>
    if 0 < i ∧ cmp (h.threads i) (h.threads (parent i)) < 0 then (.readTemp i, h) else (.done, h)
  | (.readTemp i, h) => (.moveParent i (h.threads i), h)
  | (.moveParent i temp, h) =>
    (.storeTemp i temp, { h with threads := update h.threads i (h.threads (parent i)) })
  | (.storeTemp i temp, h) =>
    (.loop (parent i), { h with threads := update h.threads (parent i) temp })
  | (.done, h) => (.done, h)

/-- The operations on a heap, and the threads they remove. -/
def run : List QueueOp → MinHeap → Option (MinHeap × List TcbPtr)
  | [], h => some (h, [])
  | .add p :: ops, h => (h.push cmp p).bind (run ops)
  | .take :: ops, h => (h.pop cmp).bind fun (p, h') =>
    (run ops h').map fun (h'', removed) => (h'', p :: removed)

variable {cmp x}

/-- At this statement the push still owes the heap what makes its contents `c`. -/
def Owes (x : TcbPtr) (c : Multiset TcbPtr) : PushPc × MinHeap → Prop
  | (.readSize, h) => h.contents + {x} = c
  | (.storeThread i, h) => i = h.size ∧ h.contents + {x} = c
  | (.incSize i, h) => i = h.size ∧ h.threads i = x ∧ h.contents + {x} = c
  | (.loop i, h) => i < h.size ∧ h.contents = c
  | (.readTemp i, h) => 0 < i ∧ i < h.size ∧ h.contents = c
  | (.moveParent i temp, h) => 0 < i ∧ i < h.size ∧ h.threads i = temp ∧ h.contents = c
  | (.storeTemp i temp, h) =>
    0 < i ∧ parent i < h.size ∧ h.contents + {temp} = c + {h.threads (parent i)}
  | (.done, h) => h.contents = c

theorem parent_lt {i : ℕ} (hi : 0 < i) : parent i < i := by
  rw [parent]
  omega

theorem Owes.step {c : Multiset TcbPtr} {s : PushPc × MinHeap} (ho : Owes x c s) :
    Owes x c (pushStep cmp x s) := by
  obtain ⟨pc, h⟩ := s
  -- slot by slot: where the new thread is counted changes at each store
  cases pc with
  | readSize => exact ⟨rfl, ho⟩
  | storeThread i =>
    obtain ⟨rfl, hc⟩ := ho
    -- it stands beyond `size` until the increment
    exact ⟨rfl, update_self _ _ _, by rw [← hc]; exact congrArg (· + {x}) (slots_update_of_le le_rfl)⟩
  | incSize i =>
    obtain ⟨rfl, hx, hc⟩ := ho
    refine ⟨Nat.lt_succ_self _, ?_⟩
    rw [← hc, contents]
    dsimp only
    rw [slots_succ, hx]
    rfl
  | loop i =>
    rw [pushStep]
    split
    · rename_i hup
      exact ⟨hup.1, ho⟩
    · exact ho.2
  | readTemp i => exact ⟨ho.1, ho.2.1, rfl, ho.2.2⟩
  | moveParent i temp =>
    -- the parent overwrites the slot of the new thread, which `temp` keeps
    obtain ⟨hpos, hi, rfl, hc⟩ := ho
    refine ⟨hpos, (parent_lt hpos).trans hi, ?_⟩
    rw [← hc, contents, contents]
    dsimp only
    rw [slots_update hi, update_of_ne (parent_lt hpos).ne]
  | storeTemp i temp =>
    -- and `temp` goes to where the parent was
    obtain ⟨hpos, hp, hc⟩ := ho
    refine ⟨hp, add_right_cancel (b := {h.threads (parent i)}) ?_⟩
    rw [← hc, contents, contents]
    exact slots_update hp
  | done => exact ho

theorem Owes.steps {c : Multiset TcbPtr} {s : PushPc × MinHeap} (ho : Owes x c s) (k : ℕ) :
    Owes x c ((pushStep cmp x)^[k] s) := by
  induction k with
  | zero => exact ho
  | succ k ih =>
    rw [iterate_succ_apply']
    exact ih.step

/-- A bound on the statements a push still executes. -/
def remaining : PushPc × MinHeap → ℕ
  | (.readSize, h) => 4 * h.size + 4
  | (.storeThread i, _) => 4 * i + 3
  | (.incSize i, _) => 4 * i + 2
  | (.loop i, _) => 4 * i + 1
  | (.readTemp i, _) => 4 * i
  | (.moveParent i _, _) => 4 * i - 1
  | (.storeTemp i _, _) => 4 * i - 2
  | (.done, _) => 0

theorem Owes.remaining_step {c : Multiset TcbPtr} {s : PushPc × MinHeap} (ho : Owes x c s)
    (hpc : s.1 ≠ .done) : remaining (pushStep cmp x s) < remaining s := by
  obtain ⟨pc, h⟩ := s
  cases pc with
  | loop i =>
    rw [pushStep]
    split
    · exact Nat.lt_succ_self _
    · exact Nat.succ_pos _
  | readTemp i | moveParent i temp =>
    have hpos : 0 < i := ho.1
    simp only [pushStep, remaining]
    omega
  | storeTemp i temp =>
    have hpos : 0 < i := ho.1
    simp only [pushStep, remaining, parent]
    omega
  | done => exact absurd rfl hpc
  | readSize | storeThread i | incSize i => exact Nat.lt_succ_self _

/-- The call ends, with what it owes in the heap. -/
theorem Owes.finish {c : Multiset TcbPtr} {s : PushPc × MinHeap} (ho : Owes x c s) :
    ∃ n h', (pushStep cmp x)^[n] s = (.done, h') ∧ h'.contents = c := by
  induction hr : remaining s using Nat.strong_induction_on generalizing s with
  | _ r ih =>
    by_cases hpc : s.1 = .done
    · obtain ⟨pc, h⟩ := s
      obtain rfl : pc = .done := hpc
      exact ⟨0, h, rfl, ho⟩
    · obtain ⟨n, h', hn, hc⟩ := ih _ (hr ▸ ho.remaining_step hpc) ho.step rfl
      exact ⟨n + 1, h', hn, hc⟩

/-- What the push has read of the heap is still so when it resumes: the slot it fills is the
first free one, and the slots it exchanges are in the heap and hold the threads it found there. -/
def Resumable (x : TcbPtr) : PushPc → MinHeap → MinHeap → Prop
  | .readSize, _, _ => True
  | .storeThread i, _, h' => h'.size = i
  | .incSize i, _, h' => h'.size = i ∧ h'.threads i = x
  | .loop i, _, h' => i < h'.size
  | .readTemp i, _, h' => i < h'.size
  | .moveParent i temp, _, h' => i < h'.size ∧ h'.threads i = temp
  | .storeTemp i _, h, h' => parent i < h'.size ∧ h'.threads (parent i) = h.threads (parent i)
  | .done, _, _ => True

/-- The call owes the heap the same thread if the heap has changed in between. -/
theorem Owes.resume {c add del : Multiset TcbPtr} {pc : PushPc} {h h' : MinHeap}
    (ho : Owes x c (pc, h)) (hops : h'.contents + del = h.contents + add)
    (hr : Resumable x pc h h') : ∃ c', Owes x c' (pc, h') ∧ c' + del = c + add := by
  cases pc with
  | readSize =>
    refine ⟨_, rfl, ?_⟩
    rw [← (ho : _ = c), add_right_comm, hops, add_right_comm]
  | storeThread i =>
    refine ⟨_, ⟨Eq.symm hr, rfl⟩, ?_⟩
    rw [← ho.2, add_right_comm, hops, add_right_comm]
  | incSize i =>
    refine ⟨_, ⟨hr.1.symm, hr.2, rfl⟩, ?_⟩
    rw [← ho.2.2, add_right_comm, hops, add_right_comm]
  | loop i => exact ⟨_, ⟨hr, rfl⟩, by rw [hops, ho.2]⟩
  | readTemp i => exact ⟨_, ⟨ho.1, hr, rfl⟩, by rw [hops, ho.2.2]⟩
  | moveParent i temp => exact ⟨_, ⟨ho.1, hr.1, hr.2, rfl⟩, by rw [hops, ho.2.2.2]⟩
  | storeTemp i temp =>
    obtain ⟨hpos, -, hc⟩ := ho
    obtain ⟨hp, hsame⟩ := hr
    -- the parent slot still holds the thread of which there are two
    obtain ⟨rest, hrest⟩ := slots_extract (a := h'.threads) hp
    refine ⟨rest + {temp}, ⟨hpos, hp, ?_⟩, ?_⟩
    · rw [contents, hrest, add_right_comm]
    · refine add_right_cancel (b := {h.threads (parent i)}) ?_
      rw [add_right_comm c, ← hc, add_right_comm h.contents, ← hops, contents, hrest, hsame]
      ac_rfl
  | done => exact ⟨_, rfl, by rw [hops]; exact congrArg (· + add) ho⟩

end MinHeap

/-- A queue that holds thread 1. -/
def LinkedQueue.single : LinkedQueue where
  node _ := ⟨1, none⟩
  brk := 1
  head := some 0
  tail := some 0

/-- A heap that holds thread 1. -/
def MinHeap.single : MinHeap where
  threads _ := 1
  size := 1

end ThreadWorker
