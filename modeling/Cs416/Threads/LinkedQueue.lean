import Cs416.Threads.Tcb

/-!
# The linked queue

`Queue_t` as nodes in memory, with `enqueue` one statement at a time and `dequeue` as a whole.
`Spells q l` says that the nodes from `head` on carry the threads `l`, and `Holds` adds what
the code relies on: the nodes are distinct, they have been allocated, and `tail` is the last of
them. `enqueue` and `dequeue` act on such a queue as on the list it spells, so that the other
models may keep a queue as a list.

`malloc` returns an address it has not returned before.
-/

open Function

namespace ThreadWorker

/-- `Node_t`. -/
structure Node where
  data : TcbPtr
  next : Option ℕ
  deriving DecidableEq, Repr

/-- A `Queue_t` and the memory of its nodes. -/
structure LinkedQueue where
  node : ℕ → Node
  /-- Addresses from here on have not been allocated. -/
  brk : ℕ
  head : Option ℕ
  tail : Option ℕ

/-- The statements of `enqueue`, with its local variable. -/
inductive EnqueuePc
  /-- `Node_t *node = malloc(sizeof(Node_t))` -/
  | malloc
  /-- `node->data = data` -/
  | setData (node : ℕ)
  /-- `node->next = NULL` -/
  | setNext (node : ℕ)
  /-- `if (queue->tail)` -/
  | testTail (node : ℕ)
  /-- `queue->tail->next = node` -/
  | linkTail (node : ℕ)
  /-- `queue->head = node` -/
  | setHead (node : ℕ)
  /-- `queue->tail = node` -/
  | setTail (node : ℕ)
  | done
  deriving DecidableEq, Repr

namespace LinkedQueue

/-- `init_queue`. -/
def init : LinkedQueue where
  node _ := ⟨0, none⟩
  brk := 0
  head := none
  tail := none

/-- One statement of `enqueue(queue, data)`; there is none where `NULL` is dereferenced. -/
def enqueueStep (data : TcbPtr) : EnqueuePc × LinkedQueue → Option (EnqueuePc × LinkedQueue)
  | (.malloc, q) => some (.setData q.brk, { q with brk := q.brk + 1 })
  | (.setData a, q) =>
    some (.setNext a, { q with node := update q.node a { q.node a with data := data } })
  | (.setNext a, q) =>
    some (.testTail a, { q with node := update q.node a { q.node a with next := none } })
  | (.testTail a, q) => some (if q.tail ≠ none then .linkTail a else .setHead a, q)
  | (.linkTail a, q) => q.tail.map fun t =>
    (.setTail a, { q with node := update q.node t { q.node t with next := some a } })
  | (.setHead a, q) => some (.setTail a, { q with head := some a })
  | (.setTail a, q) => some (.done, { q with tail := some a })
  | (.done, q) => some (.done, q)

/-- `n` statements. -/
def enqueueSteps (data : TcbPtr) : ℕ → EnqueuePc × LinkedQueue → Option (EnqueuePc × LinkedQueue)
  | 0, s => some s
  | n + 1, s => (enqueueStep data s).bind (enqueueSteps data n)

/-- How many statements `enqueue` performs. -/
def enqueueLength : ℕ := 6

/-- `enqueue` without interruption. -/
def enqueue (q : LinkedQueue) (data : TcbPtr) : Option LinkedQueue :=
  (enqueueSteps data enqueueLength (.malloc, q)).map Prod.snd

/-- `dequeue`: the thread at the head, or `NULL`. -/
def dequeue (q : LinkedQueue) : Option TcbPtr × LinkedQueue :=
  match q.head with
  | none => (none, q)
  | some a =>
    let next := (q.node a).next
    (some (q.node a).data,
      { q with head := next, tail := if next = none then none else q.tail })

/-- From `p` on the nodes are those at the addresses `as`. -/
def Chain (node : ℕ → Node) : Option ℕ → List ℕ → Prop
  | p, [] => p = none
  | p, a :: as => p = some a ∧ Chain node (node a).next as

/-- From `head` on the nodes carry the threads `l`. -/
def Spells (q : LinkedQueue) (l : List TcbPtr) : Prop :=
  ∃ as, Chain q.node q.head as ∧ l = as.map fun a => (q.node a).data

/-- The queue is made of the nodes `as`. -/
structure Holds (q : LinkedQueue) (as : List ℕ) : Prop where
  chain : Chain q.node q.head as
  nodup : as.Nodup
  allocated : ∀ a ∈ as, a < q.brk
  tail : q.tail = as.getLast?

variable {node node' : ℕ → Node} {p : Option ℕ} {a b : ℕ} {as bs : List ℕ} {q : LinkedQueue}

theorem Chain.congr (h : Chain node p as) (heq : ∀ a ∈ as, node' a = node a) :
    Chain node' p as := by
  induction as generalizing p with
  | nil => exact h
  | cons a as ih =>
    refine ⟨h.1, ?_⟩
    rw [heq a List.mem_cons_self]
    exact ih h.2 fun b hb => heq b (List.mem_cons_of_mem _ hb)

theorem Chain.unique (h : Chain node p as) (h' : Chain node p bs) : as = bs := by
  induction as generalizing p bs with
  | nil =>
    cases bs with
    | nil => rfl
    | cons b bs => exact absurd (h.symm.trans h'.1) (by simp)
  | cons a as ih =>
    cases bs with
    | nil => exact absurd (h'.symm.trans h.1) (by simp)
    | cons b bs =>
      obtain rfl := Option.some.inj (h.1.symm.trans h'.1)
      rw [ih h.2 h'.2]

/-- Linking a node that ends a chain behind the last node of another. -/
theorem Chain.link (h : Chain node p as) (hne : as ≠ []) (hnodup : as.Nodup) (ha : a ∉ as)
    (hend : (node a).next = none) {t : ℕ} (ht : as.getLast? = some t) :
    Chain (update node t { node t with next := some a }) p (as ++ [a]) := by
  induction as generalizing p with
  | nil => exact absurd rfl hne
  | cons b bs ih =>
    refine ⟨h.1, ?_⟩
    cases bs with
    | nil =>
      obtain rfl : b = t := by simpa using ht
      have hab : a ≠ b := fun hab => ha (by simp [hab])
      rw [update_self]
      refine ⟨rfl, ?_⟩
      rw [update_of_ne hab]
      exact hend
    | cons c cs =>
      have ht' : (c :: cs).getLast? = some t := by simpa using ht
      have hmem : t ∈ c :: cs := List.mem_of_getLast? ht'
      have hbt : b ≠ t := fun hbt => (List.nodup_cons.mp hnodup).1 (hbt ▸ hmem)
      rw [update_of_ne hbt]
      exact ih h.2 (by simp) (List.nodup_cons.mp hnodup).2
        (fun hmem => ha (List.mem_cons_of_mem _ hmem)) ht'

theorem Spells.unique {l l' : List TcbPtr} (h : q.Spells l) (h' : q.Spells l') : l = l' := by
  obtain ⟨as, hc, rfl⟩ := h
  obtain ⟨bs, hc', rfl⟩ := h'
  rw [hc.unique hc']

theorem Holds.spells (h : q.Holds as) : q.Spells (as.map fun a => (q.node a).data) :=
  ⟨as, h.chain, rfl⟩

theorem init_holds : init.Holds [] :=
  ⟨rfl, List.nodup_nil, fun _ ha => absurd ha (by simp), rfl⟩

/-- A queue is empty exactly if `head`, and so `tail`, is `NULL`. -/
theorem Holds.tail_eq_none (h : q.Holds as) : q.tail = none ↔ as = [] := by
  rw [h.tail, List.getLast?_eq_none_iff]

/-- The statements of `enqueue` from the test of `tail` on append the new node. Nodes outside
the queue keep what they hold. -/
theorem Holds.steps_testTail (h : q.Holds as) (ha : a ∉ as) (hbrk : a < q.brk)
    (hend : (q.node a).next = none) (x : TcbPtr) :
    ∃ q', enqueueSteps x 3 (.testTail a, q) = some (.done, q') ∧ q'.Holds (as ++ [a]) ∧
      q'.brk = q.brk ∧ (∀ b, (q'.node b).data = (q.node b).data) ∧
      ∀ b, b ∉ as → q'.node b = q.node b := by
  -- `tail == NULL`: the node becomes head and tail
  by_cases hempty : as = []
  · subst hempty
    have htail : q.tail = none := h.tail_eq_none.mpr rfl
    refine ⟨{ q with head := some a, tail := some a }, ?_, ⟨⟨rfl, hend⟩, by simp, ?_, rfl⟩, rfl,
      fun _ => rfl, fun _ _ => rfl⟩
    · simp only [enqueueSteps, enqueueStep, htail, ne_eq, not_true, if_false, Option.bind_some]
    · intro b hb
      rw [List.nil_append, List.mem_singleton] at hb
      rw [hb]
      exact hbrk
  -- otherwise it is linked behind the old tail, the only node that changes
  · obtain ⟨t, ht⟩ := Option.ne_none_iff_exists'.mp (mt List.getLast?_eq_none_iff.mp hempty)
    have htail : q.tail = some t := h.tail.trans ht
    have hmem : t ∈ as := List.mem_of_getLast? ht
    refine ⟨{ q with node := update q.node t { q.node t with next := some a }, tail := some a },
      ?_, ⟨h.chain.link hempty h.nodup ha hend ht, ?_, ?_, ?_⟩, rfl, fun b => ?_, fun b hb => ?_⟩
    · simp only [enqueueSteps, enqueueStep, htail, ne_eq, reduceCtorEq, not_false_iff, if_true,
        Option.bind_some, Option.map_some]
    · rw [List.nodup_append]
      refine ⟨h.nodup, by simp, ?_⟩
      rintro b hb c hc rfl
      rw [List.mem_singleton] at hc
      exact ha (hc ▸ hb)
    · intro b hb
      rw [List.mem_append, List.mem_singleton] at hb
      rcases hb with hb | rfl
      · exact h.allocated b hb
      · exact hbrk
    · rw [List.getLast?_append, List.getLast?_singleton]
      rfl
    · dsimp only
      rw [update_apply]
      split
      · rename_i hbt
        rw [hbt]
      · rfl
    · exact update_of_ne (fun hbt => hb (by rw [hbt]; exact hmem)) _ _

theorem enqueueSteps_add (x : TcbPtr) (m n : ℕ) (s : EnqueuePc × LinkedQueue) :
    enqueueSteps x (m + n) s = (enqueueSteps x m s).bind (enqueueSteps x n) := by
  induction m generalizing s with
  | zero => rw [Nat.zero_add]; rfl
  | succ m ih =>
    rw [Nat.add_right_comm, enqueueSteps, enqueueSteps, Option.bind_assoc]
    congr 1
    funext s'
    exact ih s'

/-- Nothing follows the last statement. -/
theorem enqueueSteps_done (x : TcbPtr) (n : ℕ) (q : LinkedQueue) :
    enqueueSteps x n (.done, q) = some (.done, q) := by
  induction n with
  | zero => rfl
  | succ n ih => exact ih

/-- A node whose address `malloc` has returned and that is not in the queue. -/
structure Private (q : LinkedQueue) (as : List ℕ) (a : ℕ) : Prop where
  allocated : a < q.brk
  notMem : a ∉ as

/-- Stores into a private node do not show in the queue. -/
theorem Holds.store (h : q.Holds as) (ha : a ∉ as) (n : Node) :
    ({ q with node := update q.node a n } : LinkedQueue).Holds as where
  chain := h.chain.congr fun b hb => update_of_ne (fun hba : b = a => ha (hba ▸ hb)) _ _
  nodup := h.nodup
  allocated := h.allocated
  tail := h.tail

theorem Holds.malloc (h : q.Holds as) :
    ({ q with brk := q.brk + 1 } : LinkedQueue).Holds as ∧
      Private { q with brk := q.brk + 1 } as q.brk :=
  ⟨⟨h.chain, h.nodup, fun a ha => Nat.lt_succ_of_lt (h.allocated a ha), h.tail⟩,
    Nat.lt_succ_self _, fun hmem => absurd (h.allocated _ hmem) (Nat.lt_irrefl _)⟩

/-- The first three statements of `enqueue` set up a private node. -/
theorem enqueueSteps_three (x : TcbPtr) (q : LinkedQueue) :
    enqueueSteps x 3 (.malloc, q) = some (.testTail q.brk,
      { q with
        node := update (update q.node q.brk { q.node q.brk with data := x }) q.brk ⟨x, none⟩
        brk := q.brk + 1 }) := by
  simp only [enqueueSteps, enqueueStep, Option.bind_some, update_self]

/-- `enqueue` appends. -/
theorem Holds.enqueue (h : q.Holds as) (x : TcbPtr) :
    ∃ q', enqueueSteps x enqueueLength (.malloc, q) = some (.done, q') ∧
      q'.Holds (as ++ [q.brk]) ∧ q.brk < q'.brk ∧
      (q'.node q.brk).data = x ∧ (∀ b ∈ as, (q'.node b).data = (q.node b).data) ∧
      ∀ b, b ∉ as → b ≠ q.brk → q'.node b = q.node b := by
  obtain ⟨hm, hp⟩ := h.malloc
  have hs := (hm.store hp.notMem { q.node q.brk with data := x }).store hp.notMem ⟨x, none⟩
  obtain ⟨q', hq', hholds, hbrk, hdata, hother⟩ :=
    hs.steps_testTail hp.notMem hp.allocated (by simp) x
  have hne : ∀ b ∈ as, b ≠ q.brk := fun b hb hbq => hp.notMem (hbq ▸ hb)
  refine ⟨q', ?_, hholds, by rw [hbrk]; exact Nat.lt_succ_self _, ?_, fun b hb => ?_,
    fun b hb hbq => ?_⟩
  · rw [show enqueueLength = 3 + 3 from rfl, enqueueSteps_add, enqueueSteps_three,
      Option.bind_some, hq']
  · rw [hdata]
    simp
  · rw [hdata]
    dsimp only
    rw [update_of_ne (hne b hb), update_of_ne (hne b hb)]
  · rw [hother b hb]
    dsimp only
    rw [update_of_ne hbq, update_of_ne hbq]

/-- `dequeue` takes the head. -/
theorem Holds.dequeue (h : q.Holds as) :
    q.dequeue.2.Holds as.tail ∧ q.dequeue.1 = as.head?.map (fun a => (q.node a).data) ∧
      q.dequeue.2.node = q.node ∧ q.dequeue.2.brk = q.brk := by
  cases as with
  | nil =>
    have hhead : q.head = none := h.chain
    rw [LinkedQueue.dequeue, hhead]
    exact ⟨h, rfl, rfl, rfl⟩
  | cons a as =>
    rw [LinkedQueue.dequeue, h.chain.1]
    refine ⟨⟨h.chain.2, (List.nodup_cons.mp h.nodup).2,
      fun b hb => h.allocated b (List.mem_cons_of_mem _ hb), ?_⟩, rfl, rfl, rfl⟩
    dsimp only
    cases as with
    | nil => rw [show (q.node a).next = none from h.chain.2, if_pos rfl]; rfl
    | cons b bs =>
      rw [show (q.node a).next = some b from h.chain.2.1, if_neg (by simp), h.tail]
      simp

end LinkedQueue

end ThreadWorker
