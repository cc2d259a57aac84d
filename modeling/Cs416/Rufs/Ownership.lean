import Cs416.Rufs.Volume
import Mathlib.Algebra.BigOperators.Group.Finset.Basic

/-!
# Block ownership

`Owned N v` is the invariant of a volume: a valid inode has its bit set and knows its own
number, every direct pointer names one of the first `N` data blocks and its bit is set, no
block is pointed at twice, and a free block holds zeros. `N` is `MAX_DNUM` in general; a
smaller bound is kept by a run whose allocations all find a free block below it.

`Charged v k` is the ledger behind "data blocks never run out". Every set data bit is charged
to an inode: to a direct pointer of a valid one, or to an inode that was taken and never made
valid, which `dir_add` can leak one block for. `k` charges are still unspent. An inode carries
at most `16` charges and there are `MAX_INUM` of them, which is just `MAX_DNUM`.

Each lemma is about one thing an operation does to the volume.
-/

open Scan

namespace Rufs

namespace Vol

/-- Inode `i` is valid. -/
abbrev Valid (v : Vol) (i : ℕ) : Prop := (v.inode i).valid ≠ 0

/-- Direct pointer `k` of inode `i`. -/
abbrev ptr (v : Vol) (i k : ℕ) : ℕ := (v.inode i).directPtr k

theorem setInode_self (v : Vol) (i : ℕ) (n : Inode) : (v.setInode i n).inode i = n.norm :=
  Function.update_self _ _ _

theorem setInode_of_ne (v : Vol) {i i' : ℕ} (h : i' ≠ i) (n : Inode) :
    (v.setInode i n).inode i' = v.inode i' :=
  Function.update_of_ne h _ _

end Vol

/-- **Block ownership**, with all blocks among the first `N`. -/
structure Owned (N : ℕ) (v : Vol) : Prop where
  ibit_of_valid : ∀ i, v.Valid i → i < maxInum ∧ v.ibit i = true
  ino_self : ∀ i, v.Valid i → (v.inode i).ino = i
  ptr_used : ∀ i k, v.Valid i → k < numPtrs → v.ptr i k ≠ 0 →
    ∃ j < N, v.ptr i k = 67 + j ∧ v.dbit j = true
  ptr_inj : ∀ i k i' k', v.Valid i → v.Valid i' → k < numPtrs → k' < numPtrs →
    v.ptr i k ≠ 0 → v.ptr i k = v.ptr i' k' → i = i' ∧ k = k'
  free_zero : ∀ j < maxDnum, v.dbit j = false → v.data (67 + j) = zeroBlock

section Owned

variable {N : ℕ} {v : Vol} {i j k b : ℕ} {n : Inode}

theorem Owned.ptr_ge (h : Owned N v) (hi : v.Valid i) (hk : k < numPtrs) (hp : v.ptr i k ≠ 0) :
    67 ≤ v.ptr i k := by
  obtain ⟨j, -, hj, -⟩ := h.ptr_used i k hi hk hp
  omega

/-- No direct pointer names a free block. -/
theorem Owned.ptr_ne_of_free (h : Owned N v) (hj : v.dbit j = false) (hi : v.Valid i)
    (hk : k < numPtrs) : v.ptr i k ≠ 67 + j := by
  intro hp
  obtain ⟨j', -, hj', hbit⟩ := h.ptr_used i k hi hk (by omega)
  obtain rfl : j' = j := by omega
  rw [hj] at hbit
  exact absurd hbit (by decide)

theorem Owned.markIno (h : Owned N v) (i : ℕ) : Owned N (v.markIno i) where
  ibit_of_valid i' hi' := by
    obtain ⟨hlt, hbit⟩ := h.ibit_of_valid i' hi'
    refine ⟨hlt, ?_⟩
    rw [Vol.markIno_ibit, Function.update_apply]
    split
    · rfl
    · exact hbit
  ino_self := h.ino_self
  ptr_used := h.ptr_used
  ptr_inj := h.ptr_inj
  free_zero := h.free_zero

theorem Owned.markBlk (h : Owned N v) (j : ℕ) : Owned N (v.markBlk j) where
  ibit_of_valid := h.ibit_of_valid
  ino_self := h.ino_self
  ptr_used i k hi hk hp := by
    obtain ⟨j', hlt, hj', hbit⟩ := h.ptr_used i k hi hk hp
    refine ⟨j', hlt, hj', ?_⟩
    rw [Vol.markBlk_dbit, Function.update_apply]
    split
    · rfl
    · exact hbit
  ptr_inj := h.ptr_inj
  free_zero j' hj' hbit := by
    rw [Vol.markBlk_dbit, Function.update_apply] at hbit
    split at hbit
    · exact absurd hbit (by decide)
    · exact h.free_zero j' hj' hbit

/-- Writing a block that is in use. -/
theorem Owned.setData (h : Owned N v) (hj : v.dbit j = true) (blk : Block) :
    Owned N (v.setData (67 + j) blk) where
  ibit_of_valid := h.ibit_of_valid
  ino_self := h.ino_self
  ptr_used := h.ptr_used
  ptr_inj := h.ptr_inj
  free_zero j' hlt hbit := by
    have hne : j' ≠ j := by
      rintro rfl
      rw [Vol.setData_dbit, hj] at hbit
      exact absurd hbit (by decide)
    rw [Vol.setData_data, Function.update_of_ne (by omega)]
    exact h.free_zero j' hlt hbit

/-- Storing an inode whose pointers nobody else holds. -/
theorem Owned.setInode (h : Owned N v) (hi : i < maxInum) (hbit : v.ibit i = true)
    (hino : n.ino = i)
    (hused : ∀ k < numPtrs, n.directPtr k ≠ 0 →
      ∃ j < N, n.directPtr k = 67 + j ∧ v.dbit j = true)
    (hinj : ∀ k < numPtrs, ∀ k' < numPtrs, n.directPtr k ≠ 0 →
      n.directPtr k = n.directPtr k' → k = k')
    (hdisj : ∀ k < numPtrs, n.directPtr k ≠ 0 → ∀ i' k', i' ≠ i → v.Valid i' → k' < numPtrs →
      n.directPtr k ≠ v.ptr i' k') :
    Owned N (v.setInode i n) := by
  -- storing an inode changes that slot only
  have hcore := n.sameCore_norm
  have hself : ∀ k < numPtrs, (v.setInode i n).ptr i k = n.directPtr k := fun k hk => by
    rw [Vol.ptr, Vol.setInode_self, hcore.directPtr k hk]
  have hother : ∀ i', i' ≠ i → (v.setInode i n).inode i' = v.inode i' :=
    fun i' hne => v.setInode_of_ne hne n
  refine ⟨?_, ?_, ?_, ?_, h.free_zero⟩
  · intro i' hi'
    by_cases hne : i' = i
    · rw [hne]
      exact ⟨hi, hbit⟩
    · rw [Vol.Valid, hother i' hne] at hi'
      exact h.ibit_of_valid i' hi'
  · intro i' hi'
    by_cases hne : i' = i
    · rw [hne, Vol.setInode_self, hcore.ino, hino]
    · rw [Vol.Valid, hother i' hne] at hi'
      rw [hother i' hne, h.ino_self i' hi']
  · intro i' k hi' hk hp
    by_cases hne : i' = i
    · rw [hne, hself k hk] at hp ⊢
      exact hused k hk hp
    · rw [Vol.Valid, hother i' hne] at hi'
      rw [Vol.ptr, hother i' hne] at hp ⊢
      exact h.ptr_used i' k hi' hk hp
  -- two pointers to one block: in the new inode, in an old one, or one in each
  · intro i₁ k₁ i₂ k₂ h₁ h₂ hk₁ hk₂ hp heq
    by_cases hne₁ : i₁ = i <;> by_cases hne₂ : i₂ = i
    · rw [hne₁, hself k₁ hk₁] at hp heq
      rw [hne₂, hself k₂ hk₂] at heq
      exact ⟨hne₁.trans hne₂.symm, hinj k₁ hk₁ k₂ hk₂ hp heq⟩
    · rw [Vol.Valid, hother i₂ hne₂] at h₂
      rw [hne₁, hself k₁ hk₁] at hp heq
      rw [Vol.ptr, hother i₂ hne₂] at heq
      exact absurd heq (hdisj k₁ hk₁ hp i₂ k₂ hne₂ h₂ hk₂)
    · rw [Vol.Valid, hother i₁ hne₁] at h₁
      rw [Vol.ptr, hother i₁ hne₁] at hp heq
      rw [hne₂, hself k₂ hk₂] at heq
      exact absurd heq.symm (hdisj k₂ hk₂ (heq ▸ hp) i₁ k₁ hne₁ h₁ hk₁)
    · rw [Vol.Valid, hother i₁ hne₁] at h₁
      rw [Vol.Valid, hother i₂ hne₂] at h₂
      rw [Vol.ptr, hother i₁ hne₁] at hp heq
      rw [Vol.ptr, hother i₂ hne₂] at heq
      exact h.ptr_inj i₁ k₁ i₂ k₂ h₁ h₂ hk₁ hk₂ hp heq

/-- Rewriting a valid inode with the same core. -/
theorem Owned.touch (h : Owned N v) (hi : v.Valid i) (hn : (v.inode i).SameCore n) :
    Owned N (v.setInode i n) := by
  obtain ⟨hlt, hbit⟩ := h.ibit_of_valid i hi
  refine h.setInode hlt hbit (hn.ino.trans (h.ino_self i hi)) ?_ ?_ ?_
  · intro k hk hp
    rw [hn.directPtr k hk] at hp ⊢
    exact h.ptr_used i k hi hk hp
  · intro k hk k' hk' hp heq
    rw [hn.directPtr k hk] at hp heq
    rw [hn.directPtr k' hk'] at heq
    exact (h.ptr_inj i k i k' hi hi hk hk' hp heq).2
  · intro k hk hp i' k' hne hi' hk' heq
    rw [hn.directPtr k hk] at hp heq
    exact hne (h.ptr_inj i k i' k' hi hi' hk hk' hp heq).1.symm

/-- `n` is inode `n₀` with pointer `k` set to `b`, up to fields outside the core. -/
structure Attached (n₀ n : Inode) (k b : ℕ) : Prop where
  ino : n.ino = n₀.ino
  valid : n.valid = n₀.valid
  stMode : n.stMode = n₀.stMode
  ptr_self : n.directPtr k = b
  ptr_of_ne : ∀ k' < numPtrs, k' ≠ k → n.directPtr k' = n₀.directPtr k'

theorem Attached.trans_core {n₀ n n' : Inode} (h : Attached n₀ n k b) (hk : k < numPtrs)
    (hc : n.SameCore n') : Attached n₀ n' k b where
  ino := hc.ino.trans h.ino
  valid := hc.valid.trans h.valid
  stMode := hc.stMode.trans h.stMode
  ptr_self := (hc.directPtr k hk).trans h.ptr_self
  ptr_of_ne k' hk' hne := (hc.directPtr k' hk').trans (h.ptr_of_ne k' hk' hne)

/-- Giving a free block to an unset pointer of a valid inode. -/
theorem Owned.attach (h : Owned N v) (hi : v.Valid i) (hj : j < N) (hfree : v.dbit j = false)
    (hn : Attached (v.inode i) n k (67 + j)) :
    Owned N ((v.markBlk j).setInode i n) := by
  obtain ⟨hlt, hbit⟩ := h.ibit_of_valid i hi
  refine (h.markBlk j).setInode hlt hbit (hn.ino.trans (h.ino_self i hi)) ?_ ?_ ?_
  -- the new pointer is the only one to block `67 + j`, which was free
  · intro k' hk' hp
    by_cases hkk : k' = k
    · rw [hkk, hn.ptr_self]
      exact ⟨j, hj, rfl, Function.update_self _ _ _⟩
    · rw [hn.ptr_of_ne k' hk' hkk] at hp ⊢
      exact (h.markBlk j).ptr_used i k' hi hk' hp
  · intro k₁ hk₁ k₂ hk₂ hp heq
    by_cases h₁ : k₁ = k <;> by_cases h₂ : k₂ = k
    · rw [h₁, h₂]
    · rw [h₁, hn.ptr_self, hn.ptr_of_ne k₂ hk₂ h₂] at heq
      exact absurd heq.symm (h.ptr_ne_of_free hfree hi hk₂)
    · rw [h₂, hn.ptr_self, hn.ptr_of_ne k₁ hk₁ h₁] at heq
      exact absurd heq (h.ptr_ne_of_free hfree hi hk₁)
    · rw [hn.ptr_of_ne k₁ hk₁ h₁] at hp heq
      rw [hn.ptr_of_ne k₂ hk₂ h₂] at heq
      exact (h.ptr_inj i k₁ i k₂ hi hi hk₁ hk₂ hp heq).2
  · intro k' hk' hp i' k₂ hne hi' hk₂ heq
    by_cases hkk : k' = k
    · rw [hkk, hn.ptr_self] at heq
      exact h.ptr_ne_of_free hfree hi' hk₂ heq.symm
    · rw [hn.ptr_of_ne k' hk' hkk] at hp heq
      exact hne (h.ptr_inj i k' i' k₂ hi hi' hk' hk₂ hp heq).1.symm

end Owned

/-! ### The ledger -/

/-- The number of blocks an inode holds. -/
def nptrs (n : Inode) : ℕ := ((Finset.range numPtrs).filter fun k => n.directPtr k ≠ 0).card

/-- What inode `i` can pay for. -/
def Vol.cost (v : Vol) (i : ℕ) : ℕ :=
  if v.Valid i then nptrs (v.inode i) else if v.ibit i then 1 else 0

def Vol.charge (v : Vol) : ℕ := ∑ i ∈ Finset.range maxInum, v.cost i

/-- **The ledger**: every block in use is charged, and `k` charges are unspent. -/
def Charged (v : Vol) (k : ℕ) : Prop := maxDnum + k ≤ v.charge + clearCount v.dbit maxDnum

section Charged

variable {N : ℕ} {v v' : Vol} {i j k m : ℕ} {n n' : Inode}

theorem nptrs_le (n : Inode) : nptrs n ≤ numPtrs :=
  (Finset.card_filter_le _ _).trans (Finset.card_range _).le

theorem nptrs_congr (h : ∀ k < numPtrs, n'.directPtr k = n.directPtr k) : nptrs n' = nptrs n := by
  unfold nptrs
  congr 1
  refine Finset.filter_congr fun k hk => ?_
  rw [h k (Finset.mem_range.mp hk)]

theorem nptrs_norm (n : Inode) : nptrs n.norm = nptrs n := nptrs_congr n.sameCore_norm.directPtr

theorem nptrs_eq_one (h0 : n.directPtr 0 ≠ 0) (h : ∀ k < numPtrs, k ≠ 0 → n.directPtr k = 0) :
    nptrs n = 1 := by
  have hset : (Finset.range numPtrs).filter (fun k => n.directPtr k ≠ 0) = {0} := by
    ext k
    simp only [Finset.mem_filter, Finset.mem_range, Finset.mem_singleton]
    constructor
    · rintro ⟨hk, hp⟩
      by_contra hne
      exact hp (h k hk hne)
    · rintro rfl
      exact ⟨by decide, h0⟩
  rw [nptrs, hset, Finset.card_singleton]

theorem nptrs_eq_zero (h : ∀ k < numPtrs, n.directPtr k = 0) : nptrs n = 0 := by
  unfold nptrs
  rw [Finset.card_eq_zero, Finset.filter_eq_empty_iff]
  exact fun k hk => not_not.mpr (h k (Finset.mem_range.mp hk))

theorem nptrs_attach (hk : k < numPtrs) (h0 : n.directPtr k = 0) {b : ℕ} (hb : b ≠ 0)
    (h : Attached n n' k b) : nptrs n' = nptrs n + 1 := by
  have hsplit : (Finset.range numPtrs).filter (fun k => n'.directPtr k ≠ 0)
      = insert k ((Finset.range numPtrs).filter fun k => n.directPtr k ≠ 0) := by
    ext k'
    simp only [Finset.mem_filter, Finset.mem_insert, Finset.mem_range]
    by_cases hkk : k' = k
    · rw [hkk, h.ptr_self]
      simp [hb, hk]
    · by_cases hlt : k' < numPtrs
      · rw [h.ptr_of_ne k' hlt hkk]
        simp [hkk]
      · simp [hlt, hkk]
  unfold nptrs
  rw [hsplit, Finset.card_insert_of_notMem]
  simp [h0]

/-- An inode with an unset pointer is below its limit. -/
theorem nptrs_lt (hk : k < numPtrs) (h0 : n.directPtr k = 0) : nptrs n < numPtrs := by
  refine lt_of_lt_of_eq (Finset.card_lt_card ?_) (Finset.card_range numPtrs)
  refine (Finset.filter_ssubset).mpr ⟨k, Finset.mem_range.mpr hk, ?_⟩
  exact not_not.mpr h0

theorem cost_le (v : Vol) (i : ℕ) : v.cost i ≤ numPtrs := by
  unfold Vol.cost
  split
  · exact nptrs_le _
  · split <;> decide

/-- Only the cost of inode `i` differs. -/
theorem charge_step (v v' : Vol) (hi : i < maxInum) (h : ∀ i', i' ≠ i → v'.cost i' = v.cost i') :
    v'.charge + v.cost i = v.charge + v'.cost i := by
  have hmem := Finset.mem_range.mpr hi
  have hrest : ∑ x ∈ (Finset.range maxInum).erase i, v'.cost x
      = ∑ x ∈ (Finset.range maxInum).erase i, v.cost x :=
    Finset.sum_congr rfl fun x hx => h x (Finset.ne_of_mem_erase hx)
  unfold Vol.charge
  rw [← Finset.add_sum_erase _ _ hmem, ← Finset.add_sum_erase _ v.cost hmem, hrest]
  omega

theorem cost_setInode_of_ne {i' : ℕ} (h : i' ≠ i) : (v.setInode i n).cost i' = v.cost i' := by
  unfold Vol.cost Vol.Valid
  rw [v.setInode_of_ne h]
  rfl

theorem cost_setInode_self (hn : n.valid ≠ 0) : (v.setInode i n).cost i = nptrs n := by
  have hself := v.setInode_self i n
  unfold Vol.cost Vol.Valid
  rw [hself, n.sameCore_norm.valid, if_pos hn, nptrs_norm]

/-- Taking an inode earns a charge. -/
theorem Charged.markIno (h : Charged v k) (hi : i < maxInum) (hbit : v.ibit i = false)
    (hv : ¬ v.Valid i) : Charged (v.markIno i) (k + 1) := by
  have hcost : v.cost i = 0 := by
    unfold Vol.cost
    rw [if_neg hv, hbit]
    rfl
  have hcost' : (v.markIno i).cost i = 1 := by
    unfold Vol.cost
    rw [if_neg (show ¬ (v.markIno i).Valid i from hv), Vol.markIno_ibit, Function.update_self]
    rfl
  have hstep := charge_step v (v.markIno i) hi fun i' hne => by
    unfold Vol.cost
    rw [Vol.markIno_ibit, Function.update_of_ne hne]
    rfl
  unfold Charged at *
  rw [Vol.markIno_dbit]
  omega

/-- Taking a block spends one. -/
theorem Charged.markBlk (h : Charged v (k + 1)) (hj : j < maxDnum) (hbit : v.dbit j = false) :
    Charged (v.markBlk j) k := by
  have hclear := clearCount_use hj hbit
  have hcharge : (v.markBlk j).charge = v.charge := rfl
  unfold Charged at *
  rw [Vol.markBlk_dbit, hcharge]
  omega

theorem Charged.setData (h : Charged v k) (b : ℕ) (blk : Block) : Charged (v.setData b blk) k := h

theorem Charged.touch (h : Charged v k) (hlt : i < maxInum) (hi : v.Valid i)
    (hn : (v.inode i).SameCore n) : Charged (v.setInode i n) k := by
  have hstep := charge_step v (v.setInode i n) hlt fun i' hne => cost_setInode_of_ne hne
  rw [cost_setInode_self (by rw [hn.valid]; exact hi), nptrs_congr hn.directPtr, Vol.cost,
    if_pos hi] at hstep
  unfold Charged at *
  rw [Vol.setInode_dbit]
  omega

/-- Giving a free block to an inode moves a charge to its pointer. -/
theorem Charged.attach (h : Charged v k) (hlt : i < maxInum) (hi : v.Valid i) (hm : m < numPtrs)
    (h0 : v.ptr i m = 0) (hj : j < maxDnum) (hbit : v.dbit j = false)
    (hn : Attached (v.inode i) n m (67 + j)) : Charged ((v.markBlk j).setInode i n) k := by
  have hclear := clearCount_use hj hbit
  have hstep := charge_step v ((v.markBlk j).setInode i n) hlt
    fun i' hne => cost_setInode_of_ne hne
  rw [cost_setInode_self (by rw [hn.valid]; exact hi), nptrs_attach hm h0 (by omega) hn, Vol.cost,
    if_pos hi] at hstep
  unfold Charged at *
  rw [Vol.setInode_dbit, Vol.markBlk_dbit]
  omega

/-- Making a taken inode valid spends its charge and earns one for each of its blocks. -/
theorem Charged.newInode (h : Charged v (k + 1)) (hi : i < maxInum) (hv : ¬ v.Valid i)
    (hn : n.valid ≠ 0) : Charged (v.setInode i n) (k + nptrs n) := by
  have hstep := charge_step v (v.setInode i n) hi fun i' hne => cost_setInode_of_ne hne
  have hcost : v.cost i ≤ 1 := by
    unfold Vol.cost
    rw [if_neg hv]
    split <;> decide
  rw [cost_setInode_self hn] at hstep
  unfold Charged at *
  rw [Vol.setInode_dbit]
  omega

/-- A block is free as long as the inodes are below their limit. -/
theorem Charged.exists_free (h : Charged v k) (hlt : v.charge < maxDnum + k) :
    ∃ j < maxDnum, v.dbit j = false := by
  by_contra hall
  have hfull : clearCount v.dbit maxDnum = 0 := clearCount_eq_zero.mpr fun j hj => by
    by_contra hj'
    exact hall ⟨j, hj, by simpa using hj'⟩
  unfold Charged at h
  omega

theorem charge_le (v : Vol) : v.charge ≤ maxDnum :=
  (Finset.sum_le_card_nsmul _ _ _ fun i _ => cost_le v i).trans (by rw [Finset.card_range]; decide)

theorem charge_lt (hlt : i < maxInum) (hi : v.Valid i) (hm : m < numPtrs) (h0 : v.ptr i m = 0) :
    v.charge < maxDnum := by
  have hi' : v.cost i < numPtrs := by
    unfold Vol.cost
    rw [if_pos hi]
    exact nptrs_lt hm h0
  refine (Finset.sum_lt_sum (fun i _ => cost_le v i) ⟨i, Finset.mem_range.mpr hlt, hi'⟩).trans_le ?_
  rw [Finset.sum_const, Finset.card_range]
  decide

end Charged

end Rufs
