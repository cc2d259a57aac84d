import Cs416.Lib.BinaryHeap
import Cs416.Threads.Heap

/-!
# The heap of the run queue is ordered

`heap_push` and `heap_pop` keep the heap ordered by a key, when the comparator compares by that
key on the threads in the heap (`Follows`), and `heap_pop` returns a thread with the least key.
-/

open Function Slots BinaryHeap

namespace ThreadWorker

namespace MinHeap

variable {κ : Type*} [LinearOrder κ]

/-- The comparator compares by the key, on the threads of `c`. -/
def Follows (cmp : TcbPtr → TcbPtr → ℤ) (key : TcbPtr → κ) (c : Multiset TcbPtr) : Prop :=
  ∀ a ∈ c, ∀ b ∈ c, (cmp a b < 0 ↔ key a < key b)

/-- The heap is ordered by the key. -/
def Ordered (key : TcbPtr → κ) (h : MinHeap) : Prop := HeapOrder (key ∘ h.threads) h.size

variable {cmp : TcbPtr → TcbPtr → ℤ} {key : TcbPtr → κ} {h h' : MinHeap} {a : ℕ → TcbPtr}
  {n i : ℕ} {p t : TcbPtr}

theorem Ordered.congr {key' : TcbPtr → κ} (ho : h.Ordered key)
    (hk : ∀ t ∈ h.contents, key' t = key t) : h.Ordered key' :=
  HeapOrder.congr ho fun _ hi => hk _ (mem_slots hi)

theorem siftUp_order (fuel : ℕ) (hcmp : Follows cmp key (slots a n))
    (ho : UpOrder (key ∘ a) n i) (hi : i < n) (hf : i ≤ fuel) :
    HeapOrder (key ∘ siftUp cmp fuel a i) n := by
  induction fuel generalizing a i with
  | zero =>
    obtain rfl := Nat.le_zero.mp hf
    exact ho.heapOrder fun h => absurd h (lt_irrefl 0)
  | succ fuel ih =>
    rw [siftUp]
    split
    · next hpos =>
      have hlt := parent_lt hpos
      have hc : cmp (a i) (a (parent i)) < 0 ↔ key (a i) < key (a (parent i)) :=
        hcmp _ (mem_slots hi) _ (mem_slots (hlt.trans hi))
      dsimp only
      split
      · next hneg =>
        have hsame : slots (swap a i (parent i)) n = slots a n := slots_swap hi (hlt.trans hi)
        refine ih (hsame ▸ hcmp) ?_ (hlt.trans hi) (by omega)
        have hswap := ho.swap hpos hi (hc.mp hneg)
        rw [← comp_swap] at hswap
        exact hswap
      · next hnot => exact ho.heapOrder fun _ => not_lt.mp fun hlt => hnot (hc.mpr hlt)
    · next hpos => exact ho.heapOrder fun h => absurd h hpos

/-- The slot with which an iteration goes on has the least key of `i` and its children. -/
theorem smallest_spec (hcmp : Follows cmp key (slots a n)) (hi : i < n) :
    (smallest cmp a n i = i ∨
      0 < smallest cmp a n i ∧ smallest cmp a n i < n ∧ parent (smallest cmp a n i) = i ∧
        key (a (smallest cmp a n i)) < key (a i)) ∧
    ∀ c, 0 < c → c < n → parent c = i → key (a (smallest cmp a n i)) ≤ key (a c) := by
  have hc : ∀ j k, j < n → k < n → (cmp (a j) (a k) < 0 ↔ key (a j) < key (a k)) :=
    fun j k hj hk => hcmp _ (mem_slots hj) _ (mem_slots hk)
  have hchild : ∀ c, 0 < c → parent c = i → c = 2 * i + 1 ∨ c = 2 * i + 2 :=
    fun c hpos hp => (parent_eq_iff hpos).mp hp
  have hleft : parent (2 * i + 1) = i := (parent_eq_iff (by omega)).mpr (.inl rfl)
  have hright : parent (2 * i + 2) = i := (parent_eq_iff (by omega)).mpr (.inr rfl)
  unfold smallest
  grind

theorem siftDown_order (fuel : ℕ) (hcmp : Follows cmp key (slots a n))
    (ho : DownOrder (key ∘ a) n i) (hi : i < n) (hf : n ≤ fuel + i) :
    HeapOrder (key ∘ siftDown cmp n fuel a i) n := by
  induction fuel generalizing a i with
  | zero => omega
  | succ fuel ih =>
    obtain ⟨hs, hmin⟩ := smallest_spec hcmp hi
    rw [siftDown]
    split
    · next heq =>
      rw [heq] at hmin
      exact ho.heapOrder hmin
    · next hne =>
      obtain ⟨hpos, hsn, hp, hlt⟩ := hs.resolve_left hne
      have hgt := parent_lt hpos
      have hsame : slots (swap a i (smallest cmp a n i)) n = slots a n := slots_swap hi hsn
      refine ih (hsame ▸ hcmp) ?_ hsn (by omega)
      have hswap := ho.swap hpos hsn hp hlt hmin
      rw [← comp_swap] at hswap
      exact hswap

/-- **A push keeps the order.** -/
theorem ordered_push (hp : h.push cmp p = some h') (hcmp : Follows cmp key (h.contents + {p}))
    (ho : h.Ordered key) : h'.Ordered key := by
  rw [← contents_push hp] at hcmp
  rw [push] at hp
  split at hp
  · obtain rfl := Option.some.inj hp
    have hup : UpOrder (key ∘ update h.threads h.size p) (h.size + 1) h.size :=
      .of_push (HeapOrder.congr ho fun i hi => congrArg key (update_of_ne hi.ne _ _))
    unfold contents at hcmp
    dsimp only at hcmp
    rw [slots_siftUp _ (Nat.lt_succ_self _)] at hcmp
    exact siftUp_order _ hcmp hup (Nat.lt_succ_self _) le_rfl
  · exact absurd hp (by simp)

/-- **A pop keeps the order**, and takes a thread with the least key. -/
theorem ordered_pop (hp : h.pop cmp = some (p, h')) (hcmp : Follows cmp key h.contents)
    (ho : h.Ordered key) : h'.Ordered key ∧ ∀ t ∈ h.contents, key p ≤ key t := by
  rw [pop] at hp
  split at hp
  · next hsize =>
    obtain ⟨rfl, rfl⟩ := Prod.mk.inj (Option.some.inj hp)
    -- the last thread takes the root's place and is sifted down
    refine ⟨?_, fun t ht => ?_⟩
    · obtain ⟨n, hn⟩ := Nat.exists_eq_add_one.mpr hsize
      unfold Ordered at ho ⊢
      rw [hn, Nat.add_sub_cancel]
      rw [hn] at ho
      rcases Nat.eq_zero_or_pos n with rfl | hpos
      · exact fun i _ hi => absurd hi (Nat.not_lt_zero i)
      · have hdown := DownOrder.of_pop ho
        have hcomp : key ∘ update h.threads 0 (h.threads n)
            = update (key ∘ h.threads) 0 ((key ∘ h.threads) n) := comp_update _ _ _ _
        rw [← hcomp] at hdown
        -- it compares threads that were in the heap only
        refine siftDown_order n ?_ hdown hpos (by omega)
        have hsub : ∀ x ∈ slots (update h.threads 0 (h.threads n)) n, x ∈ h.contents := by
          intro x hx
          obtain ⟨i, hi, rfl⟩ := exists_of_mem_slots hx
          rw [update_apply]
          split
          · exact mem_slots (by omega)
          · exact mem_slots (by omega)
        exact fun x hx y hy => hcmp x (hsub x hx) y (hsub y hy)
    -- the root was the least
    · obtain ⟨i, hi, rfl⟩ := exists_of_mem_slots ht
      exact HeapOrder.root_le ho hi
  · exact absurd hp (by simp)

end MinHeap

end ThreadWorker
