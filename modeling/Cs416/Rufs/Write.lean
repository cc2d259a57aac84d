import Cs416.Rufs.Make

/-!
# What `rufs_write` does to a volume

While the loop of `rufs_write` runs, the inode it works on is in memory and its new pointers
are not on disk yet. The loop invariant `Pending` therefore speaks about the volume that the
disk would hold if the in-memory inode were stored now: there every block has its owner, and
the ledger balances.

`Wrote` is what a part of the loop did, in terms of the content of the file: the bytes of one
interval are those of the buffer and all other bytes are the same. Steps compose
(`Wrote.trans`), so one iteration is the allocation of a block, which changes no content,
followed by the copy.
-/

open ByteMem Scan

namespace Rufs

/-- The largest file. -/
abbrev maxFile : ℕ := numPtrs * blockSize

/-- The content byte at position `p` of a file. -/
def content (v : Vol) (n : Inode) (p : ℕ) : UInt8 :=
  if n.directPtr (p / blockSize) = 0 then 0
  else v.data (n.directPtr (p / blockSize)) (p % blockSize)

theorem div_blockSize_lt {p : ℕ} (hp : p < maxFile) : p / blockSize < numPtrs :=
  Nat.div_lt_of_lt_mul (by rwa [Nat.mul_comm])

theorem content_congr {v v' : Vol} {n n' : Inode} {p : ℕ}
    (hptr : n'.directPtr (p / blockSize) = n.directPtr (p / blockSize))
    (hdata : n.directPtr (p / blockSize) ≠ 0 →
      v'.data (n.directPtr (p / blockSize)) = v.data (n.directPtr (p / blockSize))) :
    content v' n' p = content v n p := by
  unfold content
  rw [hptr]
  split
  · rfl
  · next h0 => rw [hdata h0]

/-! ### Steps of the loop -/

/-- Fields that the loop keeps. -/
structure SameMeta (n n' : Inode) : Prop where
  ino : n'.ino = n.ino
  valid : n'.valid = n.valid
  stMode : n'.stMode = n.stMode
  size : n'.size = n.size
  stSize : n'.stSize = n.stSize

theorem SameMeta.trans {n₁ n₂ n₃ : Inode} (h₁ : SameMeta n₁ n₂) (h₂ : SameMeta n₂ n₃) :
    SameMeta n₁ n₃ :=
  ⟨h₂.ino.trans h₁.ino, h₂.valid.trans h₁.valid, h₂.stMode.trans h₁.stMode,
    h₂.size.trans h₁.size, h₂.stSize.trans h₁.stSize⟩

/-- `len` bytes of `src` were written at position `pos` of file `f`, whose in-memory inode
went from `n` to `n'`. -/
structure Wrote (f : ℕ) (v : Vol) (n : Inode) (v' : Vol) (n' : Inode) (pos len : ℕ)
    (src : Bytes) : Prop where
  ibit : v'.ibit = v.ibit
  inode : v'.inode = v.inode
  meta_ : SameMeta n n'
  ptr_keep : ∀ k < numPtrs, n.directPtr k ≠ 0 → n'.directPtr k = n.directPtr k
  ptr_set : ∀ p, pos ≤ p → p < pos + len → n'.directPtr (p / blockSize) ≠ 0
  content : ∀ p < maxFile, content v' n' p =
    if pos ≤ p ∧ p < pos + len then src (p - pos) else content v n p
  others : ∀ i k, i ≠ f → v.Valid i → k < numPtrs → v.ptr i k ≠ 0 →
    v'.data (v.ptr i k) = v.data (v.ptr i k)

section Wrote

variable {f pos len len' : ℕ} {v v₁ v₂ : Vol} {n n₁ n₂ : Inode} {src : Bytes}

theorem Wrote.refl (f : ℕ) (v : Vol) (n : Inode) (pos : ℕ) (src : Bytes) :
    Wrote f v n v n pos 0 src where
  ibit := rfl
  inode := rfl
  meta_ := ⟨rfl, rfl, rfl, rfl, rfl⟩
  ptr_keep _ _ _ := rfl
  ptr_set p h₁ h₂ := by omega
  content p _ := (if_neg (by omega)).symm
  others _ _ _ _ _ _ := rfl

/-- Adjacent writes make one. -/
theorem Wrote.trans (h₁ : Wrote f v n v₁ n₁ pos len src)
    (h₂ : Wrote f v₁ n₁ v₂ n₂ (pos + len) len' fun k => src (len + k))
    (hend : pos + len ≤ maxFile) :
    Wrote f v n v₂ n₂ pos (len + len') src where
  ibit := h₂.ibit.trans h₁.ibit
  inode := h₂.inode.trans h₁.inode
  meta_ := h₁.meta_.trans h₂.meta_
  ptr_keep k hk hp := by
    have h := h₁.ptr_keep k hk hp
    rw [h₂.ptr_keep k hk (by rwa [h]), h]
  ptr_set p hl hu := by
    rcases lt_or_ge p (pos + len) with hlt | hge
    · -- a pointer of the first part stays set
      have h := h₁.ptr_set p hl hlt
      rw [h₂.ptr_keep _ (div_blockSize_lt (by omega)) h]
      exact h
    · exact h₂.ptr_set p hge (by omega)
  content p hp := by
    rw [h₂.content p hp, h₁.content p hp]
    rcases lt_or_ge p (pos + len) with hlt | hge
    · rw [if_neg (by omega)]
      by_cases hl : pos ≤ p
      · rw [if_pos ⟨hl, hlt⟩, if_pos ⟨hl, by omega⟩]
      · rw [if_neg (by omega), if_neg (by omega)]
    · by_cases hu : p < pos + len + len'
      · rw [if_pos ⟨hge, hu⟩, if_pos ⟨by omega, by omega⟩]
        congr 1
        omega
      · rw [if_neg (by omega), if_neg (by omega), if_neg (by omega)]
  others i k hne hi hk hp := by
    have h := h₁.others i k hne hi hk hp
    have hv : v₁.ptr i k = v.ptr i k := by rw [Vol.ptr, h₁.inode]
    have h' := h₂.others i k hne (by rwa [Vol.Valid, h₁.inode]) hk (by rwa [hv])
    rw [hv] at h'
    exact h'.trans h

end Wrote

/-- The invariant of the loop, for the in-memory inode `n` of file `f`. -/
structure Pending (N : ℕ) (f : ℕ) (v : Vol) (n : Inode) : Prop where
  valid : v.Valid f
  validMem : n.valid ≠ 0
  owned : Owned N (v.setInode f n)
  charged : Charged (v.setInode f n) 0

section Pending

variable {N f k b j : ℕ} {v : Vol} {n n' : Inode}

theorem Pending.lt (h : Pending N f v n) : f < maxInum := by
  refine (h.owned.ibit_of_valid f ?_).1
  rw [Vol.Valid, Vol.setInode_self, n.sameCore_norm.valid]
  exact h.validMem

theorem Pending.valid' (h : Pending N f v n) : (v.setInode f n).Valid f := by
  rw [Vol.Valid, Vol.setInode_self, n.sameCore_norm.valid]
  exact h.validMem

theorem Pending.ptr (h : Pending N f v n) (hk : k < numPtrs) (hp : n.directPtr k ≠ 0) :
    ∃ j < N, n.directPtr k = 67 + j ∧ v.dbit j = true := by
  have hself : (v.setInode f n).ptr f k = n.directPtr k := by
    rw [Vol.ptr, Vol.setInode_self, n.sameCore_norm.directPtr k hk]
  have h' := h.owned.ptr_used f k h.valid' hk (by rwa [hself])
  rwa [hself] at h'

/-- No two pointers of the file name one block. -/
theorem Pending.ptr_inj (h : Pending N f v n) {k' : ℕ} (hk : k < numPtrs) (hk' : k' < numPtrs)
    (hp : n.directPtr k ≠ 0) (heq : n.directPtr k = n.directPtr k') : k = k' := by
  have hself : ∀ m < numPtrs, (v.setInode f n).ptr f m = n.directPtr m := fun m hm => by
    rw [Vol.ptr, Vol.setInode_self, n.sameCore_norm.directPtr m hm]
  refine (h.owned.ptr_inj f k f k' h.valid' h.valid' hk hk' ?_ ?_).2
  · rwa [hself k hk]
  · rwa [hself k hk, hself k' hk']

/-- No other inode names a block of the file. -/
theorem Pending.ptr_ne (h : Pending N f v n) {i k' : ℕ} (hne : i ≠ f) (hi : v.Valid i)
    (hk : k < numPtrs) (hk' : k' < numPtrs) (hp : n.directPtr k ≠ 0) :
    v.ptr i k' ≠ n.directPtr k := by
  intro heq
  have hself : (v.setInode f n).ptr f k = n.directPtr k := by
    rw [Vol.ptr, Vol.setInode_self, n.sameCore_norm.directPtr k hk]
  have hother : (v.setInode f n).inode i = v.inode i := v.setInode_of_ne hne n
  refine hne (h.owned.ptr_inj f k i k' h.valid' ?_ hk hk' ?_ ?_).1.symm
  · rwa [Vol.Valid, hother]
  · rwa [hself]
  · rw [hself, Vol.ptr, hother]
    exact heq.symm

/-- An unset pointer leaves room for a block. -/
theorem Pending.exists_free (h : Pending N f v n) (hk : k < numPtrs) (h0 : n.directPtr k = 0) :
    ∃ j < maxDnum, v.dbit j = false := by
  refine h.charged.exists_free (charge_lt h.lt h.valid' hk ?_)
  rw [Vol.ptr, Vol.setInode_self, n.sameCore_norm.directPtr k hk]
  exact h0

/-- The loop takes a block for an unset pointer. -/
theorem Pending.attach (h : Pending N f v n) (hk : k < numPtrs) (h0 : n.directPtr k = 0)
    (hj : j < N) (hjd : j < maxDnum) (hfree : v.dbit j = false) :
    Pending N f (v.markBlk j) (n.setDirectPtr k (67 + j)) ∧
      Wrote f v n (v.markBlk j) (n.setDirectPtr k (67 + j)) b 0 zeroBlock := by
  have hb : 67 + j < 2 ^ 32 := by
    unfold maxDnum at hjd
    omega
  have hatt := attached_setDirectPtr n hk hb
  have hcore : (n.norm).SameCore n := by
    have hc := n.sameCore_norm
    exact ⟨hc.ino.symm, hc.valid.symm, hc.stMode.symm, fun k hk => (hc.directPtr k hk).symm⟩
  -- the pending inode is the stored form of the one in memory
  have hatt' : Attached ((v.setInode f n).inode f) (n.setDirectPtr k (67 + j)) k (67 + j) := by
    rw [Vol.setInode_self]
    exact ⟨hatt.ino.trans hcore.ino, hatt.valid.trans hcore.valid, hatt.stMode.trans hcore.stMode,
      hatt.ptr_self, fun k' hk' hne =>
        (hatt.ptr_of_ne k' hk' hne).trans (hcore.directPtr k' hk')⟩
  have hidem : ((v.setInode f n).markBlk j).setInode f (n.setDirectPtr k (67 + j))
      = (v.markBlk j).setInode f (n.setDirectPtr k (67 + j)) := by
    unfold Vol.setInode Vol.markBlk
    rw [Function.update_idem]
  have h0' : (v.setInode f n).ptr f k = 0 := by
    rw [Vol.ptr, Vol.setInode_self, n.sameCore_norm.directPtr k hk]
    exact h0
  refine ⟨⟨h.valid, ?_, ?_, ?_⟩, ⟨rfl, rfl, ?_, ?_, ?_, ?_, ?_⟩⟩
  · rw [hatt.valid]
    exact h.validMem
  · rw [← hidem]
    exact h.owned.attach h.valid' hj hfree hatt'
  · rw [← hidem]
    exact h.charged.attach h.lt h.valid' hk h0' hjd hfree hatt'
  · unfold numPtrs at hk
    refine ⟨hatt.ino, hatt.valid, hatt.stMode, ?_, ?_⟩
    · exact loadLe_storeLe_of_disjoint _ (by omega)
    · exact loadLe_storeLe_of_disjoint _ (by omega)
  · intro k' hk' hp
    refine hatt.ptr_of_ne k' hk' ?_
    rintro rfl
    exact hp h0
  · intro p h₁ h₂
    omega
  · intro p hp
    rw [if_neg (by omega)]
    by_cases hkp : p / blockSize = k
    · -- a free block reads as zero, like the missing one
      have hz : v.data (67 + j) = zeroBlock := h.owned.free_zero j hjd hfree
      unfold content
      rw [hkp, hatt.ptr_self, if_neg (by omega), if_pos h0, Vol.markBlk_data, hz]
      rfl
    · exact content_congr (hatt.ptr_of_ne _ (div_blockSize_lt hp) hkp) fun _ => rfl
  · intro i k' _ _ _ _
    rfl

/-- The loop copies bytes into a block of the file. -/
theorem Pending.copy (h : Pending N f v n) (hk : k < numPtrs) (hp : n.directPtr k ≠ 0) {off len : ℕ}
    (hlen : off + len ≤ blockSize) (src : Bytes) :
    Pending N f (v.setData (n.directPtr k) (memcpy (v.data (n.directPtr k)) off src len)) n ∧
      Wrote f v n (v.setData (n.directPtr k) (memcpy (v.data (n.directPtr k)) off src len)) n
        (k * blockSize + off) len src := by
  obtain ⟨j, -, hj, hbit⟩ := h.ptr hk hp
  refine ⟨⟨h.valid, h.validMem, ?_, h.charged⟩, ⟨rfl, rfl, ⟨rfl, rfl, rfl, rfl, rfl⟩, ?_, ?_, ?_, ?_⟩⟩
  · rw [hj]
    exact h.owned.setData hbit _
  · intro _ _ _
    rfl
  · intro p hl hu
    have hdiv : p / blockSize = k := by
      unfold blockSize at *
      omega
    rwa [hdiv]
  · intro p hlt
    by_cases hdiv : p / blockSize = k
    · -- the block that was written
      have hpos : p = k * blockSize + p % blockSize := by
        rw [← hdiv, Nat.mul_comm]
        exact (Nat.div_add_mod p blockSize).symm
      unfold content
      rw [hdiv, if_neg hp, if_neg hp, Vol.setData_data, Function.update_self]
      unfold memcpy
      by_cases hin : off ≤ p % blockSize ∧ p % blockSize < off + len
      · rw [if_pos hin, if_pos ⟨by omega, by omega⟩]
        congr 1
        omega
      · rw [if_neg hin, if_neg (by omega)]
    · have hout : ¬ (k * blockSize + off ≤ p ∧ p < k * blockSize + off + len) := by
        rintro ⟨h₁, h₂⟩
        apply hdiv
        unfold blockSize at *
        omega
      rw [if_neg hout]
      refine content_congr rfl fun h0 => Function.update_of_ne (fun heq => hdiv ?_) _ _
      exact h.ptr_inj (div_blockSize_lt hlt) hk h0 heq
  · intro i k' hne hi hk' hp'
    exact Function.update_of_ne (h.ptr_ne hne hi hk hk' hp) _ _

end Pending

/-! ### The loop -/

section Loop

variable {N f pos pos' : ℕ} {s : Fs} {v v' : Vol} {n n' : Inode} {src src' : Bytes}

/-- Where nothing is written does not matter. -/
theorem Wrote.move (h : Wrote f v n v' n' pos 0 src) : Wrote f v n v' n' pos' 0 src' where
  ibit := h.ibit
  inode := h.inode
  meta_ := h.meta_
  ptr_keep := h.ptr_keep
  ptr_set p h₁ h₂ := by omega
  content p hp := by
    rw [if_neg (by omega), h.content p hp, if_neg (by omega)]
  others := h.others

/-- `ensureBlk` leaves an in-memory inode whose pointer `i` is set. -/
theorem ensureBlk_spec (pos : ℕ) (hm : s.Mounted) (h : Pending N f s.vol n) {i : ℕ} (hi : i < numPtrs)
    (had : Admits N (ensureBlk s n i).2.2) :
    ∃ n' s' e, ensureBlk s n i = (some n', s', e) ∧ s'.Mounted ∧ Pending N f s'.vol n' ∧
      EventsOk N e ∧ n'.directPtr i ≠ 0 ∧ Wrote f s.vol n s'.vol n' pos 0 zeroBlock := by
  unfold ensureBlk at had ⊢
  by_cases h0 : n.directPtr i = 0
  · rw [if_pos h0] at had ⊢
    have had' : Admits N (getAvailBlkno s).2.2 := by
      refine had.mono fun e he => ?_
      rcases hg : getAvailBlkno s with ⟨_ | b, s₁, e₁⟩ <;>
      · rwa [hg] at he
    obtain ⟨j, s₁, e₁, heq, hm₁, hj, hjd, hbit, hvol, hev⟩ :=
      getAvailBlkno_spec hm (h.exists_free hi h0) had'
    obtain ⟨hpend, hwrote⟩ := h.attach (b := pos) hi h0 hj hjd hbit
    rw [heq]
    refine ⟨_, s₁, e₁, rfl, hm₁, by rw [hvol]; exact hpend, hev, ?_, by rw [hvol]; exact hwrote⟩
    have hb : 67 + j < 2 ^ 32 := by
      unfold maxDnum at hjd
      omega
    rw [(attached_setDirectPtr n hi hb).ptr_self]
    omega
  · rw [if_neg h0]
    exact ⟨n, s, [], rfl, hm, h, eventsOk_nil, h0, .refl _ _ _ _ _⟩

/-- **The loop of `rufs_write`** writes what fits behind its position. -/
theorem writeLoop_spec {buffer : Bytes} {size : ℕ} (m i : ℕ) (s : Fs) (n : Inode) (off w : ℕ)
    (hm : s.Mounted) (h : Pending N f s.vol n) (hi : i + m = numPtrs) (hoff : off < blockSize)
    (had : Admits N (writeLoop buffer size m i s n off w).2.2) :
    ∃ n' s' e len, writeLoop buffer size m i s n off w = (some (n', w + len), s', e) ∧
      s'.Mounted ∧ Pending N f s'.vol n' ∧ EventsOk N e ∧
      len = min (size - w) (m * blockSize - off) ∧
      Wrote f s.vol n s'.vol n' (i * blockSize + off) len fun k => buffer (w + k) := by
  induction m generalizing i s n off w with
  | zero => exact ⟨n, s, [], 0, rfl, hm, h, eventsOk_nil, by omega, .refl _ _ _ _ _⟩
  | succ m ih =>
    rw [writeLoop] at had ⊢
    by_cases hw : w < size
    · rw [if_pos hw] at had ⊢
      have hilt : i < numPtrs := by omega
      have had₁ : Admits N (ensureBlk s n i).2.2 := by
        refine had.mono fun e he => ?_
        rcases hg : ensureBlk s n i with ⟨_ | n₁, s₁, e₁⟩
        · rwa [hg] at he
        · rw [hg] at he
          exact List.mem_append_left _ he
      obtain ⟨n₁, s₁, e₁, heq, hm₁, hpend₁, hev₁, hp₁, hwrote₁⟩ :=
        ensureBlk_spec (i * blockSize + off) hm h hilt had₁
      rw [heq] at had ⊢
      dsimp only at had ⊢
      -- the copy stays inside the block
      have hlen : off + toCopy off (size - w) ≤ blockSize := by
        unfold toCopy
        omega
      obtain ⟨j, hjN, hj, -⟩ := hpend₁.ptr hilt hp₁
      have hge : 67 ≤ n₁.directPtr i := by omega
      have hdata := Fs.vol_data hge s₁
      obtain ⟨hpend₂, hwrote₂⟩ := hpend₁.copy hilt hp₁ hlen fun k => buffer (w + k)
      rw [hdata, ← Fs.vol_bioWrite_data _ hge] at hpend₂ hwrote₂
      have hm₂ : (s₁.bioWrite (n₁.directPtr i) (memcpy (s₁.disk (n₁.directPtr i)) off
          (fun k => buffer (w + k)) (toCopy off (size - w)))).Mounted :=
        hm₁.bioWrite (by omega) _
      generalize s₁.bioWrite (n₁.directPtr i) (memcpy (s₁.disk (n₁.directPtr i)) off
        (fun k => buffer (w + k)) (toCopy off (size - w))) = s₂ at had hpend₂ hwrote₂ hm₂ ⊢
      have had₂ : Admits N (writeLoop buffer size m (i + 1) s₂ n₁ 0
          (w + toCopy off (size - w))).2.2 :=
        had.mono fun e he => List.mem_append_right _
          (List.mem_cons_of_mem _ (List.mem_cons_of_mem _ he))
      obtain ⟨n₃, s₃, e₃, len, hloop, hm₃, hpend₃, hev₃, hlen₃, hwrote₃⟩ :=
        ih (i + 1) s₂ n₁ 0 (w + toCopy off (size - w)) hm₂ hpend₂ (by omega) (by decide) had₂
      rw [hloop]
      refine ⟨n₃, s₃, _, toCopy off (size - w) + len, by rw [← Nat.add_assoc], hm₃, hpend₃, ?_, ?_,
        ?_⟩
      · refine eventsOk_append.mpr ⟨hev₁, eventsOk_cons.mpr ⟨?_, eventsOk_cons.mpr ⟨⟨hge, ?_⟩,
          hev₃⟩⟩⟩
        · exact (by omega : n₁.directPtr i < 67 + N)
        · omega
      · rw [hlen₃]
        unfold toCopy blockSize at *
        omega
      · have hstep : Wrote f s.vol n s₂.vol n₁ (i * blockSize + off) (toCopy off (size - w))
            fun k => buffer (w + k) := by
          have hempty : Wrote f s.vol n s₁.vol n₁ (i * blockSize + off) 0
              fun k => buffer (w + k) := hwrote₁.move
          have htrans := hempty.trans (by simpa using hwrote₂) (by
            unfold maxFile blockSize at *
            omega)
          rwa [Nat.zero_add] at htrans
        refine hstep.trans ?_ (by
          unfold maxFile blockSize at *
          omega)
        by_cases hfit : toCopy off (size - w) = blockSize - off
        · -- the block was filled and the next one starts behind it
          rw [hfit] at hwrote₃ ⊢
          have hpos : i * blockSize + off + (blockSize - off) = (i + 1) * blockSize + 0 := by
            unfold blockSize at *
            omega
          rw [hpos]
          simpa [Nat.add_assoc] using hwrote₃
        · -- everything was written
          have hzero : len = 0 := by
            unfold toCopy at *
            omega
          rw [hzero] at hwrote₃ ⊢
          exact hwrote₃.move
    · rw [if_neg hw]
      have hzero : size - w = 0 := by omega
      exact ⟨n, s, [], 0, rfl, hm, h, eventsOk_nil, by rw [hzero, Nat.zero_min], .refl _ _ _ _ _⟩

end Loop

end Rufs
