import Cs416.Threads.Charges
import Cs416.Threads.Comparators
import Cs416.Threads.HeapOrder
import Cs416.Threads.SoundRuns

/-!
# The policies with a heap

PSJF and CFS keep the ready threads in a heap and differ in the field of the control block by
which the heap is ordered. What they share is stated once, for a policy `pol` with a heap:
`heapOf` is the heap, `heapKey` the pair of the field and the `id`. As long as the fields of the
threads that are ready or run stay within `2 ^ 31` of each other (`CloseKeys`), the comparator
compares by that pair, so the calls keep the heap ordered (`ordered_called`) and a call of
`schedule` takes the least of the threads that are ready when it chooses (`schedule_least`).
-/

open Function

namespace ThreadWorker

namespace Library

/-- The policies whose run queue is a heap. -/
def HasHeap (pol : Policy) : Prop := pol = .psjf ∨ pol = .cfs

/-- The heap of the policy. -/
def heapOf (pol : Policy) (s : State) : MinHeap :=
  match pol with
  | .cfs => s.cfsHeap
  | _ => s.psjfHeap

/-- The field by which its heap is ordered. -/
def heapField (pol : Policy) : Tcb → ℤ :=
  match pol with
  | .cfs => Tcb.vruntime
  | _ => Tcb.elapsedQuanta

/-- The order of the policy. -/
def heapKey (pol : Policy) : (TcbPtr → Tcb) → TcbPtr → ℤ ×ₗ ℕ := pairKey (heapField pol)

/-- The comparator of the policy. -/
def heapCmp (pol : Policy) : (TcbPtr → Tcb) → TcbPtr → TcbPtr → ℤ := keyCmp (heapField pol)

/-- The fields of the threads that are ready or run stay close together. -/
def CloseKeys (pol : Policy) (s : State) : Prop :=
  ∀ t t', s.allocated t = true → s.allocated t' = true →
    (s.tcb t).state = .ready ∨ (s.tcb t).state = .running →
    (s.tcb t').state = .ready ∨ (s.tcb t').state = .running →
    |heapField pol (s.tcb t) - heapField pol (s.tcb t')| < 2 ^ 31

/-- A thread that `schedule` may choose. -/
def Ready (s : State) (t : TcbPtr) : Prop := s.allocated t = true ∧ (s.tcb t).state = .ready

section

variable {pol : Policy} {s s' s₁ s₂ : State} {r n t : TcbPtr} {entry now : ℤ}
  {tcb : TcbPtr → Tcb} {c : Multiset TcbPtr} {cur : Option TcbPtr} {q : Multiset TcbPtr}
  {op : Op} {after : After}

/-! ### The heap of a policy -/

theorem queued_heapOf (hpol : HasHeap pol) (s : State) : queued pol s = (heapOf pol s).contents := by
  rcases hpol with rfl | rfl <;> rfl

theorem HasHeap.ne_mlfq (hpol : HasHeap pol) : pol ≠ .mlfq := by
  rcases hpol with rfl | rfl <;> decide

theorem heapOf_congr (h : SameQueues s s') : heapOf pol s' = heapOf pol s := by
  cases pol with
  | cfs => exact h.cfsHeap
  | psjf => exact h.psjfHeap
  | mlfq => exact h.psjfHeap
  | rr => exact h.psjfHeap

/-- `add_to_scheduler` pushes. -/
theorem push_of_addToScheduler (hpol : HasHeap pol) (h : addToScheduler pol s t = some s') :
    (heapOf pol s).push (heapCmp pol s.tcb) t = some (heapOf pol s') := by
  rcases hpol with rfl | rfl
  · obtain ⟨heap, hpush, rfl⟩ := Option.map_eq_some_iff.mp h
    exact hpush
  · obtain ⟨heap, hpush, rfl⟩ := Option.map_eq_some_iff.mp h
    exact hpush

/-- The scheduling function pops. -/
theorem pop_of_sched (hpol : HasHeap pol) (h : sched pol s now = some (s', some n)) :
    (heapOf pol s).pop (heapCmp pol s.tcb) = some (n, heapOf pol s') ∧
      ∀ p, heapKey pol s'.tcb p = heapKey pol s.tcb p := by
  -- under PSJF `sched` pops at once, under CFS behind the time slice
  rcases hpol with rfl | rfl
  · obtain ⟨⟨p, heap⟩, hpop, heq⟩ := Option.map_eq_some_iff.mp h
    obtain ⟨rfl, hn⟩ := Prod.mk.inj heq
    obtain rfl := Option.some.inj hn
    refine ⟨hpop, fun t => ?_⟩
    simp only [heapKey, pairKey, heapField, State.setTcb, update_apply]
    split
    · next htp => rw [htp]
    · rfl
  · unfold sched schedCfs at h
    dsimp only at h
    split at h
    · exact absurd h (by simp)
    · next r hr =>
      obtain ⟨⟨p, heap⟩, hpop, heq⟩ := Option.map_eq_some_iff.mp h
      obtain ⟨rfl, hn⟩ := Prod.mk.inj heq
      obtain rfl := Option.some.inj hn
      -- the time slice is no key
      have hslice : ∀ t, SameKeys (s.tcb t)
          ((s.setTcb r { s.tcb r with cfsTimeslice := cfsSlice s.cfsHeap.size }).tcb t) :=
        keysKept_setTcb ⟨rfl, rfl, rfl, rfl, rfl, rfl, rfl⟩
      rw [cfsCmp_eq hslice] at hpop
      refine ⟨hpop, fun t => ?_⟩
      simp only [heapKey, pairKey, heapField, State.setTcb, update_apply]
      split_ifs <;> simp_all

/-- The comparator compares by the key. -/
theorem heapCmp_follows
    (hclose : ∀ a ∈ c, ∀ b ∈ c, |heapField pol (tcb a) - heapField pol (tcb b)| < 2 ^ 31)
    (hid : ∀ a ∈ c, (tcb a).id < 2 ^ 31) :
    MinHeap.Follows (heapCmp pol tcb) (heapKey pol tcb) c := by
  intro a ha b hb
  have hsign := (cmp_keyCmp_iff (heapField pol) (hid a ha) (hid b hb)).mpr
    (narrows_of_abs_lt (hclose a ha b hb))
  rw [heapCmp, heapKey, ← cmp_eq_lt_iff, hsign, cmp_eq_lt_iff]

/-- Among threads that contend in a state with close fields the comparator is the order. -/
theorem CloseKeys.follows (hclose : CloseKeys pol s) (hsound : Sound s cur q)
    (hnext : s.nextThreadId ≤ 2 ^ 31)
    (hc : ∀ t ∈ c, s.allocated t = true ∧
      ((s.tcb t).state = .ready ∨ (s.tcb t).state = .running))
    (hkey : ∀ t ∈ c, heapKey pol tcb t = heapKey pol s.tcb t) :
    MinHeap.Follows (heapCmp pol tcb) (heapKey pol tcb) c := by
  refine heapCmp_follows (fun a ha b hb => ?_) fun a ha => ?_
  · have hqa : heapField pol (tcb a) = heapField pol (s.tcb a) :=
      congrArg (fun x => (ofLex x).1) (hkey a ha)
    have hqb : heapField pol (tcb b) = heapField pol (s.tcb b) :=
      congrArg (fun x => (ofLex x).1) (hkey b hb)
    rw [hqa, hqb]
    exact hclose a b (hc a ha).1 (hc b hb).1 (hc a ha).2 (hc b hb).2
  · have hid : (tcb a).id = (s.tcb a).id := congrArg (fun x => (ofLex x).2) (hkey a ha)
    rw [hid]
    exact (hsound.fresh a (hc a ha).1).trans_le hnext

/-! ### The calls -/

theorem SameKeys.heapKey (pol : Policy) {tcb' : TcbPtr → Tcb} (h : SameKeys (tcb t) (tcb' t)) :
    heapKey pol tcb' t = heapKey pol tcb t := by
  unfold Library.heapKey pairKey heapField
  cases pol <;> simp [h.id, h.elapsedQuanta, h.vruntime]

/-- A thread in the heap is ready. -/
theorem Sound.mem_heapOf (hpol : HasHeap pol) (h : Sound s cur (queued pol s))
    (ht : t ∈ (heapOf pol s).contents) : Ready s t := by
  have hcount := h.queue t
  rw [queued_heapOf hpol] at hcount
  by_contra hnot
  unfold Ready at hnot
  rw [if_neg hnot] at hcount
  exact Multiset.count_eq_zero.mp hcount ht

/-- A push by a call keeps the heap ordered by the keys that the call leaves. -/
theorem ordered_called (hpol : HasHeap pol) (hcall : Called pol s s')
    (ho : (heapOf pol s).Ordered (heapKey pol s.tcb))
    (halloc : ∀ t ∈ (heapOf pol s).contents, s.allocated t = true)
    (hfollows : MinHeap.Follows (heapCmp pol s'.tcb) (heapKey pol s'.tcb)
      (heapOf pol s').contents) :
    (heapOf pol s').Ordered (heapKey pol s'.tcb) := by
  have ho' := ho.congr fun t ht => (hcall.keys t (halloc t ht)).heapKey pol
  rcases hcall.queue with hq | ⟨p, s₂, hadd, hq⟩
  · rw [heapOf_congr hq]
    exact ho'
  · have hpush := push_of_addToScheduler hpol hadd
    have hheap : heapOf pol { s with tcb := s'.tcb } = heapOf pol s := by cases pol <;> rfl
    rw [hheap, ← heapOf_congr hq] at hpush
    rw [MinHeap.contents_push hpush] at hfollows
    exact MinHeap.ordered_push hpush hfollows ho'

theorem next_le (hcall : Called pol s s') (h : s.nextThreadId ≤ 2 ^ 31 - 1) :
    s'.nextThreadId ≤ 2 ^ 31 - 1 := by
  rcases hcall.next with heq | ⟨heq, hlt⟩ <;> omega

/-! ### The choice of the scheduler -/

/-- What `schedule` does with the thread `r` that left the CPU: it charges a preemption, and
pushes `r` if it is ready. -/
structure LeavesHeapOf (pol : Policy) (s : State) (r : TcbPtr) (s' : State) : Prop where
  key : ∀ t, ¬ (t = r ∧ s.stateOf r = .running) → heapKey pol s'.tcb t = heapKey pol s.tcb t
  heap : heapOf pol s' = heapOf pol s ∨
    (heapOf pol s).push (heapCmp pol s'.tcb) r = some (heapOf pol s')

/-- A thread that is preempted or yields is charged, and pushed. -/
theorem leave_adds (now : ℤ) (hpol : HasHeap pol) (hrun : s.runningTcb = some r)
    (hst : s.stateOf r = .running ∨ s.stateOf r = .ready) :
    ∃ b : Tcb, leave pol s now = addToScheduler pol (s.setTcb r b) r ∧ b.id = (s.tcb r).id ∧
      (s.stateOf r ≠ .running → heapField pol b = heapField pol (s.tcb r)) := by
  rw [leave, hrun]
  dsimp only
  have hself : (s.setState r .ready).tcb r = { s.tcb r with state := .ready } :=
    update_self _ _ _
  rcases hst with hst | hst
  · have hst' : (s.tcb r).state = .running := hst
    rw [hst']
    dsimp only
    rcases hpol with rfl | rfl
    · refine ⟨{ s.tcb r with state := .ready, elapsedQuanta := (s.tcb r).elapsedQuanta + 1 }, ?_,
        rfl, fun h => absurd hst h⟩
      rw [preempt, hself, State.setState, State.setTcb_setTcb]
    · refine ⟨{ s.tcb r with
          state := .ready
          vruntime := (s.tcb r).vruntime + timeDiffMicroseconds (s.tcb r).lastStart now }, ?_,
        rfl, fun h => absurd hst h⟩
      rw [preempt, updateVruntime, hself, State.setState, State.setTcb_setTcb]
  · have hst' : (s.tcb r).state = .ready := hst
    rw [hst']
    exact ⟨_, rfl, rfl, fun _ => by cases pol <;> rfl⟩

theorem leave_heapOf (hpol : HasHeap pol) (hrun : s.runningTcb = some r)
    (h : leave pol s now = some s') : LeavesHeapOf pol s r s' := by
  -- a thread that was preempted or has yielded goes back into the heap
  by_cases hst : s.stateOf r = .running ∨ s.stateOf r = .ready
  · obtain ⟨b, hleave, hid, hfield⟩ := leave_adds now hpol hrun hst
    rw [hleave] at h
    have htcb : s'.tcb = (s.setTcb r b).tcb := by
      obtain ⟨⟨rr, psjf, mlfq, cfs, rfl⟩, -⟩ := addToScheduler_spec h
      rfl
    have hheap : heapOf pol (s.setTcb r b) = heapOf pol s := by cases pol <;> rfl
    have hpush := push_of_addToScheduler hpol h
    rw [hheap, ← htcb] at hpush
    refine ⟨fun t ht => ?_, .inr hpush⟩
    rw [htcb]
    simp only [heapKey, pairKey, State.setTcb, update_apply]
    split
    · next htr =>
      rw [htr, hid, hfield fun hc => ht ⟨htr, hc⟩]
    · rfl
  -- one that is blocked or has ended does not
  · have hsame : s'.tcb = s.tcb ∧ heapOf pol s' = heapOf pol s := by
      rw [leave, hrun] at h
      dsimp only at h
      cases hst' : (s.tcb r).state with
      | running => exact absurd (.inl hst') hst
      | ready => exact absurd (.inr hst') hst
      | blocked =>
        rw [hst'] at h
        obtain rfl := Option.some.inj h
        exact ⟨rfl, rfl⟩
      | terminated =>
        rw [hst'] at h
        obtain rfl := Option.some.inj h
        exact ⟨rfl, by cases pol <;> rfl⟩
    exact ⟨fun t _ => by rw [hsame.1], .inl hsame.2⟩

/-- The heap from which `schedule` chooses holds the threads that are ready then. -/
theorem count_at_choice (hpol : HasHeap pol) (hrun : s₁.runningTcb = some r)
    (hpark : Parked pol s₁ r) (hleave : leave pol s₁ entry = some s₂) :
    (heapOf pol s₂).contents = (heapOf pol s₁).contents + requeued pol r (s₁.stateOf r) ∧
    ∀ t, (heapOf pol s₂).contents.count t =
      if s₂.allocated t = true ∧ (s₂.tcb t).state = .ready then 1 else 0 := by
  obtain ⟨hkeep, -, hqueue⟩ := leave_spec hrun hleave
  rw [if_neg fun h => hpol.ne_mlfq h.1, add_zero, queued_heapOf hpol, queued_heapOf hpol] at hqueue
  refine ⟨hqueue, fun t => ?_⟩
  have hst : (s₂.tcb t).state = ((s₁.setState r (settled (s₁.stateOf r))).tcb t).state := by
    rw [hkeep.state t]
    simp only [State.setState, State.setTcb, State.stateOf, update_apply]
    split <;> rfl
  have hcount := hpark.queue t
  rw [queued_heapOf hpol] at hcount
  rw [hqueue, hkeep.allocated, hst]
  exact hcount

theorem mem_at_choice (hpol : HasHeap pol) (hrun : s₁.runningTcb = some r)
    (hpark : Parked pol s₁ r) (hleave : leave pol s₁ entry = some s₂) :
    t ∈ (heapOf pol s₂).contents ↔ Ready s₂ t := by
  rw [← Multiset.one_le_count_iff_mem, (count_at_choice hpol hrun hpark hleave).2 t, Ready]
  split <;> simp [*]

/-- The key that `schedule` changes is that of a thread that is not in the heap. -/
theorem keys_at_choice (hpol : HasHeap pol) (hrun : s₁.runningTcb = some r)
    (hpark : Parked pol s₁ r) (hleave : leave pol s₁ entry = some s₂)
    (ht : t ∈ (heapOf pol s₁).contents) : heapKey pol s₂.tcb t = heapKey pol s₁.tcb t := by
  obtain ⟨hcontents, hcount⟩ := count_at_choice hpol hrun hpark hleave
  refine (leave_heapOf hpol hrun hleave).key t ?_
  rintro ⟨rfl, hrunning⟩
  have hone := hcount t
  rw [hcontents, hrunning, requeued, Multiset.count_add, Multiset.count_singleton_self] at hone
  have hpos := Multiset.one_le_count_iff_mem.mpr ht
  split at hone <;> omega

/-- The `id`s of the threads among which `schedule` chooses. -/
theorem ids_at_choice (hpol : HasHeap pol) (hrun : s₁.runningTcb = some r)
    (hpark : Parked pol s₁ r) (hleave : leave pol s₁ entry = some s₂)
    (hnext : s₁.nextThreadId ≤ 2 ^ 31) :
    (∀ t ∈ (heapOf pol s₂).contents, (s₂.tcb t).id < 2 ^ 31) ∧
      ∀ t t', t ∈ (heapOf pol s₂).contents → t' ∈ (heapOf pol s₂).contents →
        (s₂.tcb t).id = (s₂.tcb t').id → t = t' := by
  obtain ⟨hkeep, -, -⟩ := leave_spec hrun hleave
  have halloc : ∀ t ∈ (heapOf pol s₂).contents, s₁.allocated t = true := by
    intro t ht
    rw [← hkeep.allocated]
    exact ((mem_at_choice hpol hrun hpark hleave).mp ht).1
  have hid : ∀ t, (s₂.tcb t).id = ((s₁.setState r (settled (s₁.stateOf r))).tcb t).id := by
    intro t
    rw [(hkeep.same t).id]
    simp only [State.setState, State.setTcb, update_apply]
    split
    · next htr => rw [htr]
    · rfl
  refine ⟨fun t ht => ?_, fun t t' ht ht' he => ?_⟩
  · rw [hid]
    exact (hpark.fresh t (halloc t ht)).trans_le hnext
  · rw [hid, hid] at he
    exact hpark.ids t t' (halloc t ht) (halloc t' ht') he

/-- **The heap from which `schedule` chooses is ordered.** -/
theorem ordered_at_choice (hpol : HasHeap pol) (hrun : s₁.runningTcb = some r)
    (hpark : Parked pol s₁ r) (hleave : leave pol s₁ entry = some s₂)
    (hs : Sound s (some r) (queued pol s)) (hcall : Called pol s s₁)
    (ho : (heapOf pol s).Ordered (heapKey pol s.tcb)) (hnext : s₁.nextThreadId ≤ 2 ^ 31)
    (hclose : CloseKeys pol s₂) :
    MinHeap.Follows (heapCmp pol s₂.tcb) (heapKey pol s₂.tcb) (heapOf pol s₂).contents ∧
      (heapOf pol s₂).Ordered (heapKey pol s₂.tcb) := by
  have hready : ∀ t ∈ (heapOf pol s₂).contents, Ready s₂ t :=
    fun t ht => (mem_at_choice hpol hrun hpark hleave).mp ht
  have hfollows₂ : MinHeap.Follows (heapCmp pol s₂.tcb) (heapKey pol s₂.tcb)
      (heapOf pol s₂).contents :=
    heapCmp_follows (fun a ha b hb => hclose a b (hready a ha).1 (hready b hb).1
      (.inl (hready a ha).2) (.inl (hready b hb).2))
      (ids_at_choice hpol hrun hpark hleave hnext).1
  have hsub : ∀ t ∈ (heapOf pol s₁).contents, t ∈ (heapOf pol s₂).contents := by
    intro t ht
    rw [(count_at_choice hpol hrun hpark hleave).1]
    exact Multiset.mem_add.mpr (.inl ht)
  have hkey : ∀ t ∈ (heapOf pol s₁).contents, heapKey pol s₂.tcb t = heapKey pol s₁.tcb t :=
    fun t => keys_at_choice hpol hrun hpark hleave
  -- the threads that were in the heap before have their keys still, so they compare as before
  have hfollows₁ : MinHeap.Follows (heapCmp pol s₁.tcb) (heapKey pol s₁.tcb)
      (heapOf pol s₁).contents := by
    refine heapCmp_follows (fun a ha b hb => ?_) fun a ha => ?_
    · have hfa : heapField pol (s₂.tcb a) = heapField pol (s₁.tcb a) :=
        congrArg (fun x => (ofLex x).1) (hkey a ha)
      have hfb : heapField pol (s₂.tcb b) = heapField pol (s₁.tcb b) :=
        congrArg (fun x => (ofLex x).1) (hkey b hb)
      have hra := hready a (hsub a ha)
      have hrb := hready b (hsub b hb)
      rw [← hfa, ← hfb]
      exact hclose a b hra.1 hrb.1 (.inl hra.2) (.inl hrb.2)
    · have hid : (s₂.tcb a).id = (s₁.tcb a).id := congrArg (fun x => (ofLex x).2) (hkey a ha)
      rw [← hid]
      exact (ids_at_choice hpol hrun hpark hleave hnext).1 a (hsub a ha)
  have ho₁ : (heapOf pol s₁).Ordered (heapKey pol s₂.tcb) :=
    (ordered_called hpol hcall ho (fun t ht => (hs.mem_heapOf hpol ht).1) hfollows₁).congr hkey
  refine ⟨hfollows₂, ?_⟩
  rcases (leave_heapOf hpol hrun hleave).heap with heq | hpush
  · rw [heq]
    exact ho₁
  · rw [MinHeap.contents_push hpush] at hfollows₂
    exact MinHeap.ordered_push hpush hfollows₂ ho₁

/-- **What a call of `schedule` chooses**: the least of the threads that are ready. -/
theorem least_at_choice {s₃ : State} (hpol : HasHeap pol) (hrun : s₁.runningTcb = some r)
    (hpark : Parked pol s₁ r) (hleave : leave pol s₁ entry = some s₂)
    (hpick : sched pol s₂ now = some (s₃, some n)) (hs : Sound s (some r) (queued pol s))
    (hcall : Called pol s s₁) (ho : (heapOf pol s).Ordered (heapKey pol s.tcb))
    (hnext : s₁.nextThreadId ≤ 2 ^ 31) (hclose : CloseKeys pol s₂) :
    (heapOf pol s₃).Ordered (heapKey pol s₃.tcb) ∧ Ready s₂ n ∧
      ∀ t, Ready s₂ t → t ≠ n → heapKey pol s₂.tcb n < heapKey pol s₂.tcb t := by
  have hmem : ∀ t, t ∈ (heapOf pol s₂).contents ↔ Ready s₂ t :=
    fun t => mem_at_choice hpol hrun hpark hleave
  obtain ⟨hpop, hkeys⟩ := pop_of_sched hpol hpick
  have hpopped := MinHeap.contents_pop hpop
  obtain ⟨hfollows, ho₂⟩ := ordered_at_choice hpol hrun hpark hleave hs hcall ho hnext hclose
  obtain ⟨ho₃, hleast⟩ := MinHeap.ordered_pop hpop hfollows ho₂
  have hn : n ∈ (heapOf pol s₂).contents := by
    rw [← hpopped]
    exact Multiset.mem_add.mpr (.inr (Multiset.mem_singleton_self n))
  refine ⟨ho₃.congr fun t _ => hkeys t, (hmem n).mp hn, fun t ht hne => ?_⟩
  refine lt_of_le_of_ne (hleast t ((hmem t).mpr ht)) fun heq => hne ?_
  -- no two threads have the same `id`
  have hid : (s₂.tcb n).id = (s₂.tcb t).id := congrArg (fun x => (ofLex x).2) heq
  exact ((ids_at_choice hpol hrun hpark hleave hnext).2 n t hn ((hmem t).mpr ht) hid).symm

/-- The fields are close when `schedule` chooses if they are at the end of the step: the threads
among which it chooses are ready or run then. -/
theorem CloseKeys.at_choice {s₃ : State} (hpol : HasHeap pol) (hrun : s₁.runningTcb = some r)
    (hpark : Parked pol s₁ r) (hleave : leave pol s₁ entry = some s₂)
    (hpick : sched pol s₂ now = some (s₃, some n)) (hs₃ : Sound s₃ (some n) (queued pol s₃))
    (hclose : CloseKeys pol s₃) : CloseKeys pol s₂ := by
  obtain ⟨hpop, hkeys⟩ := pop_of_sched hpol hpick
  have hpopped := MinHeap.contents_pop hpop
  have hfield : ∀ t, heapField pol (s₃.tcb t) = heapField pol (s₂.tcb t) :=
    fun t => congrArg (fun x => (ofLex x).1) (hkeys t)
  have hcontends : ∀ t, s₂.allocated t = true →
      (s₂.tcb t).state = .ready ∨ (s₂.tcb t).state = .running →
      s₃.allocated t = true ∧ ((s₃.tcb t).state = .ready ∨ (s₃.tcb t).state = .running) := by
    intro t ha hst
    obtain ⟨hkeep, -, -⟩ := leave_spec hrun hleave
    -- no thread runs while the scheduler chooses
    have hne : (s₂.tcb t).state ≠ .running := by
      have hsettled : (s₂.tcb t).state = ((s₁.setState r (settled (s₁.stateOf r))).tcb t).state := by
        rw [hkeep.state t]
        simp only [State.setState, State.setTcb, State.stateOf, update_apply]
        split <;> rfl
      rw [hkeep.allocated] at ha
      rw [hsettled]
      exact fun hc => absurd ((hpark.running t ha).mp hc) (by simp)
    have hmem := (mem_at_choice hpol hrun hpark hleave).mpr ⟨ha, hst.resolve_right hne⟩
    rw [← hpopped] at hmem
    rcases Multiset.mem_add.mp hmem with hmem | hmem
    · exact ⟨(hs₃.mem_heapOf hpol hmem).1, .inl (hs₃.mem_heapOf hpol hmem).2⟩
    · rw [Multiset.mem_singleton.mp hmem]
      have hn := (hs₃.cpu n rfl).2.2
      exact ⟨hn, .inr ((hs₃.running n hn).mpr rfl)⟩
  intro t t' ha ha' hst hst'
  obtain ⟨ha₃, hst₃⟩ := hcontends t ha hst
  obtain ⟨ha₃', hst₃'⟩ := hcontends t' ha' hst'
  have hlt := hclose t t' ha₃ ha₃' hst₃ hst₃'
  rw [hfield, hfield] at hlt
  exact hlt

/-! ### Runs -/

/-- What holds of the heap after a run in which the fields stay close. -/
structure HeapInv (pol : Policy) (s : State) : Prop where
  ordered : (heapOf pol s).Ordered (heapKey pol s.tcb)
  nextThreadId : s.nextThreadId ≤ 2 ^ 31 - 1

theorem heapInv_init (h : IsInit s Tcb.zero) : HeapInv pol s where
  ordered := by
    have hempty : (heapOf pol s).size = 0 := by
      cases pol with
      | cfs => exact congrArg MinHeap.size h.cfsHeap
      | psjf => exact congrArg MinHeap.size h.psjfHeap
      | mlfq => exact congrArg MinHeap.size h.psjfHeap
      | rr => exact congrArg MinHeap.size h.psjfHeap
    intro i _ hi
    rw [hempty] at hi
    exact absurd hi (Nat.not_lt_zero i)
  nextThreadId := by
    rw [h.nextThreadId]
    norm_num

theorem HeapInv.step {l : Label} (hpol : HasHeap pol) (h : HeapInv pol s)
    (hs : Sound s (some r) (queued pol s)) (hstep : (orderly pol).step s l s')
    (hclose : CloseKeys pol s') : HeapInv pol s' := by
  rcases orderly_cases hs hstep with hret | ⟨s₁, why, n, hsw⟩
  · have hcall := act_called hret.act
    have hs' := hret.acted.ret _ rfl
    have hnext := next_le hcall h.nextThreadId
    refine ⟨ordered_called hpol hcall h.ordered (fun t ht => (hs.mem_heapOf hpol ht).1) ?_, hnext⟩
    exact hclose.follows hs' (by omega)
      (fun t ht => ⟨(hs'.mem_heapOf hpol ht).1, .inl (hs'.mem_heapOf hpol ht).2⟩) fun _ _ => rfl
  · have hs' := hsw.stepped.sound
    obtain ⟨hrun, hpark, -, hnext, -⟩ := hsw.acted.enter why rfl
    obtain ⟨s₃, hsched, hsch, rfl⟩ := hsw.schedule
    obtain ⟨s₂, hleave, hpick⟩ := Option.bind_eq_some_iff.mp hsched
    have hs₃ : Sound s₃ (some n) (queued pol s₃) := hs'.of_eq rfl rfl rfl rfl rfl rfl rfl rfl rfl
    have hbound : s₁.nextThreadId ≤ 2 ^ 31 := hnext.trans_le (h.nextThreadId.trans (by norm_num))
    have hclose₂ := CloseKeys.at_choice hpol hrun hpark hleave hpick hs₃ hclose
    obtain ⟨ho, -, -⟩ := least_at_choice hpol hrun hpark hleave hpick hs (act_called hsw.act)
      h.ordered hbound hclose₂
    exact ⟨ho, (hsch.keeps.nextThreadId.trans hnext).trans_le h.nextThreadId⟩

end

end Library

end ThreadWorker
