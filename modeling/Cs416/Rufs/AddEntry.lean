import Cs416.Rufs.Directory

/-!
# What `dir_add` does to a volume

`AddOutcome` lists the ways `dir_add` can end, with the volume it leaves: the name is
rejected, an unused entry is filled, a new block is given to the directory, or a block is taken
and lost because the directory has all its blocks. `dirAdd_spec` says that these are all; the
lemmas after it derive what a caller needs from the outcome: ownership, the ledger, and that a
success adds exactly one name to the lookups of one directory.
-/

open ByteMem Scan

namespace Rufs

section Allocation

variable {N : ℕ} {s : Fs}

/-- With a free block, `get_avail_blkno` returns the first one. -/
theorem getAvailBlkno_spec (hm : s.Mounted) (hfree : ∃ j < maxDnum, s.vol.dbit j = false)
    (had : Admits N (getAvailBlkno s).2.2) :
    ∃ j s' e, getAvailBlkno s = (some (67 + j), s', e) ∧ s'.Mounted ∧ j < N ∧ j < maxDnum ∧
      s.vol.dbit j = false ∧ s'.vol = s.vol.markBlk j ∧ EventsOk N e := by
  rcases getAvailBlkno_cases hm with ⟨j, s', heq, hm', hlt, hbit, hfirst, hvol⟩ | ⟨-, hall⟩
  · have hj : j < N := by
      rcases had with rfl | ⟨-, hfind⟩
      · exact hlt
      · -- first fit: the bit that is clear below `N` is not in front of `j`
        rw [heq] at hfind
        obtain ⟨k, hk, hclear⟩ := hfind (s.disk 2) (some (67 + j)) (by simp)
        by_contra hle
        have hset := hfirst k (by omega)
        rw [Fs.vol_dbit, hclear] at hset
        exact absurd hset (by decide)
    refine ⟨j, s', _, heq, hm', hj, hlt, hbit, hvol, ?_⟩
    refine eventsOk_cons.mpr ⟨(by decide : 2 < 67).trans_le (Nat.le_add_right 67 N), ?_⟩
    exact eventsOk_cons.mpr ⟨rfl, eventsOk_cons.mpr ⟨rfl, eventsOk_nil⟩⟩
  · obtain ⟨j, hj, hbit⟩ := hfree
    rw [hall j hj] at hbit
    exact absurd hbit (by decide)

theorem inodeBlk_events {i : ℕ} (hi : i < maxInum) :
    EventsOk N [.read (inodeBlk i), .write .writei (inodeBlk i)] := by
  have hlt := inodeBlk_lt hi
  refine eventsOk_cons.mpr ⟨Nat.lt_add_right N hlt, eventsOk_cons.mpr ⟨⟨?_, hlt⟩, eventsOk_nil⟩⟩
  exact le_inodeBlk i

end Allocation

/-! ### Inode updates -/

section InodeUpdates

variable {n : Inode} {k b t : ℕ}

theorem sameCore_dirTouch (n : Inode) (t : ℕ) : n.SameCore (dirTouch n t) := by
  unfold dirTouch Inode.setStMtime Inode.setSize
  refine ⟨?_, ?_, ?_, fun k hk => ?_⟩
  · unfold Inode.ino
    rw [loadLe_storeLe_of_disjoint _ (by omega), loadLe_storeLe_of_disjoint _ (by omega)]
  · unfold Inode.valid
    rw [loadLe_storeLe_of_disjoint _ (by omega), loadLe_storeLe_of_disjoint _ (by omega)]
  · unfold Inode.stMode
    rw [loadLe_storeLe_of_disjoint _ (by omega), loadLe_storeLe_of_disjoint _ (by omega)]
  · unfold numPtrs at hk
    unfold Inode.directPtr
    rw [loadLe_storeLe_of_disjoint _ (by omega), loadLe_storeLe_of_disjoint _ (by omega)]

theorem attached_setDirectPtr (n : Inode) (hk : k < numPtrs) (hb : b < 2 ^ 32) :
    Attached n (n.setDirectPtr k b) k b := by
  unfold numPtrs at hk
  unfold Inode.setDirectPtr
  refine ⟨?_, ?_, ?_, ?_, fun k' hk' hne => ?_⟩
  · exact loadLe_storeLe_of_disjoint _ (by omega)
  · exact loadLe_storeLe_of_disjoint _ (by omega)
  · exact loadLe_storeLe_of_disjoint _ (by omega)
  · exact loadLe_storeLe _ _ _ (by omega)
  · exact loadLe_storeLe_of_disjoint _ (by omega)

end InodeUpdates

/-! ### The outcomes -/

/-- How `dir_add` ends: the returned success and the volume it leaves. `c` is the name, `i`
the directory and `f` the inode number of the new entry. -/
inductive AddOutcome (N : ℕ) (v : Vol) (i f : ℕ) (c : Name) : Bool → Vol → Prop
  | rejected : nameMax < c.length ∨ (∃ j, v.lookup i c = some j) → AddOutcome N v i f c false v
  | reused (k : ℕ) (n : Inode) : c.length ≤ nameMax → v.lookup i c = none → k < numEnts →
      v.slot (v.inode i) entFree k = true → (v.inode i).SameCore n →
      AddOutcome N v i f c true
        ((v.setData (v.ptr i (k / entsPerBlk))
          (setEntry (v.data (v.ptr i (k / entsPerBlk))) (k % entsPerBlk) f c)).setInode i n)
  | grown (m j : ℕ) (n : Inode) : c.length ≤ nameMax → v.lookup i c = none → m < numPtrs →
      v.ptr i m = 0 → j < N → j < maxDnum → v.dbit j = false →
      Attached (v.inode i) n m (67 + j) →
      AddOutcome N v i f c true
        (((v.markBlk j).setInode i n).setData (67 + j) (setEntry zeroBlock 0 f c))
  | full (j : ℕ) : c.length ≤ nameMax → v.lookup i c = none →
      (∀ k < numEnts, v.slot (v.inode i) entFree k = false) →
      (∀ m < numPtrs, v.ptr i m ≠ 0) → j < N → j < maxDnum → v.dbit j = false →
      AddOutcome N v i f c false (v.markBlk j)

section Spec

variable {N : ℕ} {s : Fs} {i f t : ℕ} {c : Name}

/-- The part of `dir_add` that takes a block. -/
theorem dirGrow_spec (hm : s.Mounted) (ho : Owned N s.vol) (hi : s.vol.Valid i)
    (hc : Charged s.vol 1) (hl : c.length ≤ nameMax) (hnew : s.vol.lookup i c = none)
    (hfull : ∀ k < numEnts, s.vol.slot (s.vol.inode i) entFree k = false)
    (had : Admits N (dirGrow s (s.vol.inode i) f c t).2.2) :
    ∃ ok s' e, dirGrow s (s.vol.inode i) f c t = (ok, s', e) ∧ s'.Mounted ∧
      AddOutcome N s.vol i f c ok s'.vol ∧ EventsOk N e := by
  have hlt := (ho.ibit_of_valid i hi).1
  -- the budget says that a data block is left
  have hfree : ∃ j < maxDnum, s.vol.dbit j = false :=
    hc.exists_free (Nat.lt_succ_of_le (charge_le s.vol))
  have had' : Admits N (getAvailBlkno s).2.2 := by
    refine had.mono fun e he => ?_
    unfold dirGrow
    rcases hg : getAvailBlkno s with ⟨_ | b, s₁, e₁⟩
    · rwa [hg] at he
    · rw [hg] at he
      dsimp only
      split
      · exact he
      · exact List.mem_append_left _ he
  obtain ⟨j, s₁, e₁, heq, hm₁, hj, hjd, hbit, hvol, hev⟩ := getAvailBlkno_spec hm hfree had'
  unfold dirGrow
  rw [heq]
  dsimp only
  -- an unset pointer takes the block, if there is one
  cases hf : firstIdx (fun k => (s.vol.inode i).directPtr k == 0) 0 numPtrs with
  -- all pointers are set: the block is taken for nothing
  | none =>
    refine ⟨false, s₁, e₁, rfl, hm₁, ?_, hev⟩
    rw [hvol]
    refine .full j hl hnew hfull (fun m hm => ?_) hj hjd hbit
    simpa using firstIdx_eq_none.mp hf m (Nat.zero_le _) (by omega)
  | some m =>
    obtain ⟨-, hmlt, h0, -⟩ := firstIdx_eq_some.mp hf
    have hmlt' : m < numPtrs := by omega
    have h0' : s.vol.ptr i m = 0 := by simpa using h0
    have hatt := attached_setDirectPtr (s.vol.inode i) (b := 67 + j) hmlt'
      (by unfold maxDnum at hjd; omega)
    have hino : ((s.vol.inode i).setDirectPtr m (67 + j)).ino = i :=
      hatt.ino.trans (ho.ino_self i hi)
    have hm₂ : (s₁.bioWrite (67 + j) (setEntry zeroBlock 0 f c)).Mounted :=
      hm₁.bioWrite (by omega) _
    obtain ⟨s₂, hw, hm₃, hvol₂⟩ :=
      writei_eq hm₂ hlt (dirTouch ((s.vol.inode i).setDirectPtr m (67 + j)) t)
    dsimp only
    rw [hino, hw]
    refine ⟨true, s₂, _, rfl, hm₃, ?_, ?_⟩
    · rw [hvol₂, Fs.vol_bioWrite_data _ (by omega), hvol]
      exact .grown m j _ hl hnew hmlt' h0' hj hjd hbit
        (hatt.trans_core hmlt' (sameCore_dirTouch _ _))
    · refine eventsOk_append.mpr ⟨hev, eventsOk_cons.mpr ⟨⟨by omega, by omega⟩, ?_⟩⟩
      exact inodeBlk_events hlt

/-- **The outcomes of `dir_add`.** -/
theorem dirAdd_spec (hm : s.Mounted) (ho : Owned N s.vol) (hi : s.vol.Valid i)
    (hc : Charged s.vol 1) (had : Admits N (dirAdd s (s.vol.inode i) f c t).2.2) :
    ∃ ok s' e, dirAdd s (s.vol.inode i) f c t = (ok, s', e) ∧ s'.Mounted ∧
      AddOutcome N s.vol i f c ok s'.vol ∧ EventsOk N e := by
  have hlt := (ho.ibit_of_valid i hi).1
  unfold dirAdd at had ⊢
  rw [ho.ino_self i hi] at had ⊢
  -- a name that is too long is refused before anything is read
  split at had
  · next hlong =>
    rw [if_pos hlong]
    exact ⟨false, s, [], rfl, hm, .rejected (.inl hlong), eventsOk_nil⟩
  next hl =>
  rw [if_neg hl]
  have hl' : c.length ≤ nameMax := not_lt.mp hl
  have hfind := dirFind_eq hm ho hi c
  have hev := dirFind_events hm ho hi c
  rcases hd : dirFind s i c with ⟨_ | j, e⟩
  -- the name is new: the scan looks for a free entry in the blocks there are
  · rw [hd] at hfind hev had
    have hscan : (scanEntries s (s.vol.inode i) entFree numPtrs 0).1 = _ :=
      scanEntries_eq (fun k hk hp => ho.ptr_ge hi hk hp) le_rfl
    have hev₁ : EventsOk N (scanEntries s (s.vol.inode i) entFree numPtrs 0).2 :=
      scanEntries_events (fun k hk hp => ho.ptr_lt hi hk hp) le_rfl
    rw [Nat.zero_mul] at hscan
    cases hf : firstIdx (s.vol.slot (s.vol.inode i) entFree) 0 (numPtrs * entsPerBlk) with
    -- a free entry takes the name
    | some k =>
      obtain ⟨-, hk, hslot, -⟩ := firstIdx_eq_some.mp hf
      have hk' : k / entsPerBlk < numPtrs := Nat.div_lt_of_lt_mul (by rw [Nat.mul_comm]; omega)
      have h0 : s.vol.ptr i (k / entsPerBlk) ≠ 0 := by
        simp only [Vol.slot, Bool.and_eq_true, bne_iff_ne] at hslot
        exact hslot.1
      have hge := ho.ptr_ge hi hk' h0
      have hltN := ho.ptr_lt hi hk' h0
      have hdata := Fs.vol_data hge s
      rw [hf, Option.map_some] at hscan
      rcases hse : scanEntries s (s.vol.inode i) entFree numPtrs 0 with ⟨_ | ⟨blk, j⟩, e₁⟩
      · rw [hse] at hscan
        exact absurd hscan (by simp)
      rw [hse] at hscan hev₁
      obtain ⟨rfl, rfl⟩ := Prod.mk.inj (Option.some.inj hscan)
      dsimp only
      obtain ⟨s₂, hw, hm₂, hvol₂⟩ := writei_eq (s := s.bioWrite (s.vol.ptr i (k / entsPerBlk))
        (setEntry (s.disk (s.vol.ptr i (k / entsPerBlk))) (k % entsPerBlk) f c))
        (hm.bioWrite (by omega) _) hlt (dirTouch (s.vol.inode i) t)
      refine ⟨true, s₂, e ++ e₁ ++ .write .data (s.vol.ptr i (k / entsPerBlk)) ::
        [.read (inodeBlk i), .write .writei (inodeBlk i)], by rw [hw], hm₂, ?_, ?_⟩
      · rw [hvol₂, Fs.vol_bioWrite_data _ hge, ← hdata]
        exact .reused k _ hl' hfind.symm (by omega) hslot (sameCore_dirTouch _ _)
      · refine eventsOk_append.mpr ⟨eventsOk_append.mpr ⟨hev, hev₁⟩, ?_⟩
        exact eventsOk_cons.mpr ⟨⟨hge, hltN⟩, inodeBlk_events hlt⟩
    -- no entry is free, so the directory grows
    | none =>
      rw [hf, Option.map_none] at hscan
      rcases hse : scanEntries s (s.vol.inode i) entFree numPtrs 0 with ⟨_ | b, e₁⟩
      · rw [hse] at had hev₁
        obtain ⟨ok, s', e₂, heq, hm', hout, hev₂⟩ := dirGrow_spec hm ho hi hc hl' hfind.symm
          (fun k hk => firstIdx_eq_none.mp hf k (Nat.zero_le _) (by omega)) had.right
        dsimp only
        rw [heq]
        refine ⟨ok, s', _, rfl, hm', hout, ?_⟩
        exact eventsOk_append.mpr ⟨eventsOk_append.mpr ⟨hev, hev₁⟩, hev₂⟩
      · rw [hse] at hscan
        exact absurd hscan (by simp)
  -- the name exists
  · rw [hd] at hfind hev
    exact ⟨false, s, e, rfl, hm, .rejected (.inr ⟨j, hfind.symm⟩), hev⟩

end Spec

/-! ### Consequences -/

section Consequences

variable {N : ℕ} {v v' : Vol} {i i' f k : ℕ} {c c' : Name} {ok : Bool}

theorem AddOutcome.ibit (h : AddOutcome N v i f c ok v') : v'.ibit = v.ibit := by
  cases h <;> rfl

/-- A failure changes no inode and no block. -/
theorem AddOutcome.unchanged (h : AddOutcome N v i f c false v') :
    v'.inode = v.inode ∧ v'.data = v.data := by
  cases h <;> exact ⟨rfl, rfl⟩

theorem AddOutcome.inode_of_ne (h : AddOutcome N v i f c ok v') (hne : i' ≠ i) :
    v'.inode i' = v.inode i' := by
  cases h with
  | rejected _ => rfl
  | reused k n _ _ _ _ _ => exact Vol.setInode_of_ne _ hne n
  | grown m j n _ _ _ _ _ _ _ _ => exact Vol.setInode_of_ne _ hne n
  | full _ _ _ _ _ _ _ => rfl

/-- The directory stays the inode it was. -/
theorem AddOutcome.self (h : AddOutcome N v i f c ok v') :
    (v'.inode i).valid = (v.inode i).valid ∧ (v'.inode i).stMode = (v.inode i).stMode := by
  cases h with
  | rejected _ => exact ⟨rfl, rfl⟩
  | reused k n _ _ _ _ hn =>
    rw [Vol.setInode_self, n.sameCore_norm.valid, n.sameCore_norm.stMode]
    exact ⟨hn.valid, hn.stMode⟩
  | grown m j n _ _ _ _ _ _ _ hn =>
    rw [Vol.setData_inode, Vol.setInode_self, n.sameCore_norm.valid, n.sameCore_norm.stMode]
    exact ⟨hn.valid, hn.stMode⟩
  | full _ _ _ _ _ _ _ => exact ⟨rfl, rfl⟩

theorem AddOutcome.valid_iff (h : AddOutcome N v i f c ok v') (i' : ℕ) :
    v'.Valid i' ↔ v.Valid i' := by
  by_cases hne : i' = i
  · rw [hne, Vol.Valid, h.self.1]
  · rw [Vol.Valid, h.inode_of_ne hne]

theorem AddOutcome.isDir (h : AddOutcome N v i f c ok v') (i' : ℕ) :
    (v'.inode i').isDir = (v.inode i').isDir := by
  by_cases hne : i' = i
  · rw [hne, Inode.isDir, Inode.isDir, h.self.2]
  · rw [h.inode_of_ne hne]

theorem AddOutcome.rooted (h : AddOutcome N v i f c ok v') (hr : v.Rooted) : v'.Rooted where
  valid := (h.valid_iff 0).mpr hr.valid
  isDir := (h.isDir 0).trans hr.isDir

theorem div_entsPerBlk_lt (hk : k < numEnts) : k / entsPerBlk < numPtrs :=
  Nat.div_lt_of_lt_mul (by rwa [Nat.mul_comm])

theorem ptr_of_slot {p : Block → ℕ → Bool} (h : v.slot (v.inode i) p k = true) :
    v.ptr i (k / entsPerBlk) ≠ 0 := by
  simp only [Vol.slot, Bool.and_eq_true, bne_iff_ne] at h
  exact h.1

theorem AddOutcome.owned (h : AddOutcome N v i f c ok v') (ho : Owned N v) (hi : v.Valid i) :
    Owned N v' := by
  cases h with
  | rejected _ => exact ho
  | reused k n _ _ hk hslot hn =>
    obtain ⟨j, -, hj, hbit⟩ :=
      ho.ptr_used i _ hi (div_entsPerBlk_lt hk) (ptr_of_slot hslot)
    rw [hj]
    exact (ho.setData hbit _).touch hi hn
  | grown m j n _ _ _ _ hj _ hbit hn =>
    exact (ho.attach hi hj hbit hn).setData (Function.update_self _ _ _) _
  | full j _ _ _ _ _ _ => exact ho.markBlk j

/-- A failure may cost the charge of the inode that was taken for the entry. -/
theorem AddOutcome.charged (h : AddOutcome N v i f c ok v') (ho : Owned N v) (hi : v.Valid i)
    (hc : Charged v (k + 1)) : Charged v' (if ok then k + 1 else k) := by
  have hlt := (ho.ibit_of_valid i hi).1
  cases h with
  | rejected _ => exact (Nat.le_succ _).trans hc
  | reused k' n _ _ _ _ hn => exact (hc.setData _ _).touch hlt hi hn
  | grown m j n _ _ hm h0 _ hj hbit hn => exact (hc.attach hlt hi hm h0 hj hbit hn).setData _ _
  | full j _ _ _ _ _ hj hbit => exact hc.markBlk hj hbit

/-- Only blocks of the directory are written. -/
theorem AddOutcome.data_of_ne (h : AddOutcome N v i f c ok v') (ho : Owned N v) (hi : v.Valid i)
    (hne : i' ≠ i) (hi' : v.Valid i') {m : ℕ} (hm : m < numPtrs) (hp : v.ptr i' m ≠ 0) :
    v'.data (v.ptr i' m) = v.data (v.ptr i' m) := by
  cases h with
  | rejected _ => rfl
  | reused k n _ _ hk hslot _ =>
    refine Function.update_of_ne (fun heq => hne ?_) _ _
    exact (ho.ptr_inj i' m i _ hi' hi hm (div_entsPerBlk_lt hk) hp heq).1
  | grown m' j n _ _ _ _ _ _ hbit _ =>
    exact Function.update_of_ne (ho.ptr_ne_of_free hbit hi' hm) _ _
  | full _ _ _ _ _ _ _ => rfl

/-! ### The new name -/

/-- The property of an entry depends on its bytes only, and a zeroed entry does not have it. -/
structure EntryLocal (p : Block → ℕ → Bool) : Prop where
  congr : ∀ b b' j, Agree b b' (j * direntSize) direntSize → p b' j = p b j
  zero : ∀ j, p zeroBlock j = false

theorem EntryLocal.setEntry {p : Block → ℕ → Bool} (h : EntryLocal p) {b : Block} {j k : ℕ}
    (hl : c.length ≤ nameMax) (hk : k ≠ j) : p (setEntry b j f c) k = p b k :=
  h.congr _ _ _ (agree_setEntry hl (by unfold direntSize; omega))

theorem entMatches_zeroBlock (c : Name) (j : ℕ) : entMatches c zeroBlock j = false := by
  have hv : entValid zeroBlock j = 0 := loadLe_zero _ _
  unfold entMatches
  rw [hv]
  rfl

theorem entryLocal_entMatches (hc : c.length ≤ nameMax) : EntryLocal (entMatches c) where
  congr b b' j h := by
    have hload : ∀ a n, j * direntSize ≤ a → a + n ≤ j * direntSize + direntSize →
        loadLe b' a n = loadLe b a n := fun a n hl hu => loadLe_congr (h.mono hl hu)
    have hbytes : ∀ i < c.length, entByte b' j i = entByte b j i := fun i hi =>
      h _ (by omega) (by unfold nameMax direntSize at *; omega)
    unfold direntSize at hload
    rw [Bool.eq_iff_iff, entMatches_iff hc, entMatches_iff hc]
    unfold entValid entLen direntSize
    rw [hload _ _ (by omega) (by omega), hload _ _ (by omega) (by omega)]
    refine and_congr_right fun _ => and_congr_right fun _ => forall₂_congr fun i hi => ?_
    rw [hbytes i hi]
  zero := entMatches_zeroBlock c

/-- The entry is in use. -/
def entUsed (b : Block) (j : ℕ) : Bool := !entFree b j

theorem entryLocal_entUsed : EntryLocal entUsed where
  congr b b' j h := by
    unfold entUsed entFree entValid
    rw [loadLe_congr (h.mono (by omega) (by unfold direntSize; omega))]
  zero j := by
    have hv : entValid zeroBlock j = 0 := loadLe_zero _ _
    unfold entUsed entFree
    rw [hv]
    rfl

/-- Entry `k` of directory `i` was unused and now is `c ↦ f`; the other entries are the same. -/
structure Inserted (v v' : Vol) (i f : ℕ) (c : Name) (k : ℕ) : Prop where
  lt : k < numEnts
  old : ∀ c', v.slot (v.inode i) (entMatches c') k = false
  new : ∀ c', c'.length ≤ nameMax →
    (v'.slot (v'.inode i) (entMatches c') k = true ↔ c' = c)
  ino : v'.slotIno (v'.inode i) k = f
  other : ∀ k' < numEnts, k' ≠ k → ∀ p, EntryLocal p →
    v'.slot (v'.inode i) p k' = v.slot (v.inode i) p k'
  other_ino : ∀ k' < numEnts, k' ≠ k → v.ptr i (k' / entsPerBlk) ≠ 0 →
    v'.slotIno (v'.inode i) k' = v.slotIno (v.inode i) k'

/-- The lookup afterwards: one more name. -/
theorem Inserted.lookup (h : Inserted v v' i f c k) (hl : c.length ≤ nameMax)
    (hnew : v.lookup i c = none) (c' : Name) :
    v'.lookup i c' = if c' = c then some f else v.lookup i c' := by
  unfold Vol.lookup at hnew ⊢
  rw [if_neg (not_lt.mpr hl), Option.map_eq_none_iff, firstIdx_eq_none] at hnew
  by_cases hlong : nameMax < c'.length
  · have hne : c' ≠ c := by
      rintro rfl
      omega
    rw [if_pos hlong, if_pos hlong, if_neg hne]
  rw [if_neg hlong, if_neg hlong]
  have hl' : c'.length ≤ nameMax := not_lt.mp hlong
  by_cases hcc : c' = c
  · -- no entry in front of the new one has the name
    subst hcc
    have hfirst : firstIdx (v'.slot (v'.inode i) (entMatches c')) 0 numEnts = some k := by
      refine firstIdx_eq_some.mpr ⟨Nat.zero_le _, by have := h.lt; omega, (h.new c' hl').mpr rfl, ?_⟩
      intro k' _ hk'
      rw [h.other k' (hk'.trans h.lt) (by omega) _ (entryLocal_entMatches hl')]
      exact hnew k' (Nat.zero_le _) (by have := h.lt; omega)
    rw [hfirst, if_pos rfl, Option.map_some, h.ino]
  · have hsame : ∀ k', 0 ≤ k' → k' < 0 + numEnts →
        v'.slot (v'.inode i) (entMatches c') k' = v.slot (v.inode i) (entMatches c') k' := by
      intro k' _ hk'
      by_cases hkk : k' = k
      · rw [hkk, h.old c', ← Bool.not_eq_true, h.new c' hl']
        exact hcc
      · exact h.other k' (by omega) hkk _ (entryLocal_entMatches hl')
    rw [firstIdx_congr hsame, if_neg hcc]
    cases hf : firstIdx (v.slot (v.inode i) (entMatches c')) 0 numEnts with
    | none => rfl
    | some k' =>
      obtain ⟨-, hk', hm, -⟩ := firstIdx_eq_some.mp hf
      have hkk : k' ≠ k := by
        rintro rfl
        rw [h.old c'] at hm
        exact absurd hm (by decide)
      rw [Option.map_some, Option.map_some, h.other_ino k' (by omega) hkk (ptr_of_slot hm)]

/-- A success inserts the name. -/
theorem AddOutcome.inserted (h : AddOutcome N v i f c true v') (ho : Owned N v) (hi : v.Valid i)
    (hf : f < 2 ^ 16) : ∃ k, Inserted v v' i f c k := by
  cases h with
  | reused k n hl hnew hk hslot hn =>
    have h0 := ptr_of_slot hslot
    have hkm := div_entsPerBlk_lt hk
    have hfree : entFree (v.data (v.ptr i (k / entsPerBlk))) (k % entsPerBlk) = true := by
      simp only [Vol.slot, Bool.and_eq_true] at hslot
      exact hslot.2
    -- the pointers are the old ones, and a block other than the one written is the old one
    have hptr : ∀ m < numPtrs, (Vol.setInode (v.setData (v.ptr i (k / entsPerBlk))
        (setEntry (v.data (v.ptr i (k / entsPerBlk))) (k % entsPerBlk) f c)) i n).ptr i m
          = v.ptr i m := by
      intro m hm
      rw [Vol.ptr, Vol.setInode_self, n.sameCore_norm.directPtr m hm, hn.directPtr m hm]
    have hdata : ∀ m < numPtrs, v.ptr i m ≠ 0 → m ≠ k / entsPerBlk →
        Function.update v.data (v.ptr i (k / entsPerBlk))
          (setEntry (v.data (v.ptr i (k / entsPerBlk))) (k % entsPerBlk) f c) (v.ptr i m)
            = v.data (v.ptr i m) := by
      intro m hm hp hne
      refine Function.update_of_ne (fun heq => hne ?_) _ _
      exact (ho.ptr_inj i m i _ hi hi hm hkm hp heq).2
    have hmod : ∀ k', k' / entsPerBlk = k / entsPerBlk → k' ≠ k →
        k' % entsPerBlk ≠ k % entsPerBlk := by
      intro k' hd hne hm
      apply hne
      rw [← Nat.div_add_mod k' entsPerBlk, ← Nat.div_add_mod k entsPerBlk, hd, hm]
    refine ⟨k, hk, ?_, ?_, ?_, ?_, ?_⟩
    · intro c'
      unfold Vol.slot
      by_contra hm
      rw [Bool.not_eq_false, Bool.and_eq_true] at hm
      rw [not_entFree_of_entMatches hm.2] at hfree
      exact absurd hfree (by decide)
    · intro c' hc'
      have hp := hptr _ hkm
      unfold Vol.ptr at hp
      unfold Vol.slot
      rw [hp, Vol.setInode_data, Vol.setData_data, Vol.ptr, Function.update_self,
        bne_iff_ne.mpr h0, Bool.true_and, entMatches_setEntry hl hc']
    · have hp := hptr _ hkm
      unfold Vol.ptr at hp
      unfold Vol.slotIno
      rw [hp, Vol.setInode_data, Vol.setData_data, Vol.ptr, Function.update_self,
        entIno_setEntry hf]
    · intro k' hk' hne p hlocal
      have hkm' := div_entsPerBlk_lt hk'
      have hp := hptr _ hkm'
      have hd := hdata _ hkm'
      unfold Vol.ptr at hp hd
      unfold Vol.slot
      rw [hp, Vol.setInode_data, Vol.setData_data]
      by_cases h0' : (v.inode i).directPtr (k' / entsPerBlk) = 0
      · rw [h0']
        rfl
      by_cases hdiv : k' / entsPerBlk = k / entsPerBlk
      · rw [hdiv, Vol.ptr, Function.update_self, hlocal.setEntry hl (hmod k' hdiv hne)]
      · rw [Vol.ptr, hd h0' hdiv]
    · intro k' hk' hne h0'
      have hkm' := div_entsPerBlk_lt hk'
      have hp := hptr _ hkm'
      have hd := hdata _ hkm' h0'
      unfold Vol.ptr at hp hd
      unfold Vol.slotIno
      rw [hp, Vol.setInode_data, Vol.setData_data]
      by_cases hdiv : k' / entsPerBlk = k / entsPerBlk
      · rw [hdiv, Vol.ptr, Function.update_self, entIno_setEntry_of_ne hl (hmod k' hdiv hne)]
      · rw [Vol.ptr, hd hdiv]
  | grown m j n hl hnew hm h0 _ _ hbit hn =>
    have hdivm : m * entsPerBlk / entsPerBlk = m := Nat.mul_div_cancel _ (by decide)
    have hmodm : m * entsPerBlk % entsPerBlk = 0 := Nat.mul_mod_left _ _
    have hself : (Vol.setData ((v.markBlk j).setInode i n) (67 + j)
        (setEntry zeroBlock 0 f c)).inode i = n.norm := Vol.setInode_self _ _ _
    have hptrm : n.norm.directPtr m = 67 + j := by
      rw [n.sameCore_norm.directPtr m hm, hn.ptr_self]
    have hptr : ∀ m' < numPtrs, m' ≠ m → n.norm.directPtr m' = v.ptr i m' := by
      intro m' hm' hne
      rw [n.sameCore_norm.directPtr m' hm', hn.ptr_of_ne m' hm' hne]
    have hdata : ∀ m' < numPtrs, Function.update v.data (67 + j) (setEntry zeroBlock 0 f c)
        (v.ptr i m') = v.data (v.ptr i m') :=
      fun m' hm' => Function.update_of_ne (ho.ptr_ne_of_free hbit hi hm') _ _
    refine ⟨m * entsPerBlk, ?_, ?_, ?_, ?_, ?_, ?_⟩
    · exact Nat.mul_lt_mul_of_pos_right hm (by decide)
    · intro c'
      unfold Vol.slot
      rw [hdivm]
      exact Bool.and_eq_false_iff.mpr (.inl (by simpa using h0))
    · intro c' hc'
      rw [hself]
      unfold Vol.slot
      rw [hdivm, hmodm, hptrm, Vol.setData_data, Function.update_self,
        bne_iff_ne.mpr (by omega), Bool.true_and, entMatches_setEntry hl hc']
    · rw [hself]
      unfold Vol.slotIno
      rw [hdivm, hmodm, hptrm, Vol.setData_data, Function.update_self, entIno_setEntry hf]
    · intro k' hk' hne p hlocal
      have hkm' := div_entsPerBlk_lt hk'
      rw [hself]
      unfold Vol.slot
      rw [Vol.setData_data, Vol.setInode_data, Vol.markBlk_data]
      by_cases hdiv : k' / entsPerBlk = m
      · -- a new block has no other entry
        have hmod : k' % entsPerBlk ≠ 0 := by
          intro h0'
          apply hne
          rw [← Nat.div_add_mod k' entsPerBlk, hdiv, h0', Nat.mul_comm, Nat.add_zero]
        have hold : (v.inode i).directPtr m = 0 := h0
        rw [hdiv, hptrm, Function.update_self, hlocal.setEntry hl hmod, hlocal.zero, hold,
          Bool.and_false]
        rfl
      · rw [hptr _ hkm' hdiv, hdata _ hkm']
    · intro k' hk' hne h0'
      have hkm' := div_entsPerBlk_lt hk'
      have hdiv : k' / entsPerBlk ≠ m := fun heq => h0' (by rw [heq]; exact h0)
      rw [hself]
      unfold Vol.slotIno
      rw [Vol.setData_data, Vol.setInode_data, Vol.markBlk_data, hptr _ hkm' hdiv, hdata _ hkm']

/-- **A success adds one name to one directory.** -/
theorem AddOutcome.lookup (h : AddOutcome N v i f c true v') (ho : Owned N v) (hi : v.Valid i)
    (hf : f < 2 ^ 16) (hi' : v.Valid i') (c' : Name) :
    v'.lookup i' c' = if i' = i ∧ c' = c then some f else v.lookup i' c' := by
  by_cases hii : i' = i
  · obtain ⟨k, hins⟩ := h.inserted ho hi hf
    have hname : c.length ≤ nameMax ∧ v.lookup i c = none := by
      cases h with
      | reused _ _ hl hnew _ _ _ => exact ⟨hl, hnew⟩
      | grown _ _ _ hl hnew _ _ _ _ _ _ => exact ⟨hl, hnew⟩
    rw [hii, hins.lookup hname.1 hname.2]
    simp
  · rw [if_neg fun hand => hii hand.1]
    refine Vol.lookup_congr (fun m _ => ?_) fun m hm hp => h.data_of_ne ho hi hii hi' hm hp
    rw [Vol.ptr, h.inode_of_ne hii]

/-- When `dir_add` succeeds. -/
theorem AddOutcome.ok_iff (h : AddOutcome N v i f c ok v') :
    ok = true ↔ c.length ≤ nameMax ∧ v.lookup i c = none ∧
      ((∃ k < numEnts, v.slot (v.inode i) entFree k = true) ∨ ∃ m < numPtrs, v.ptr i m = 0) := by
  cases h with
  | rejected hr =>
    refine iff_of_false (by decide) ?_
    rintro ⟨hl, hnew, -⟩
    rcases hr with hlong | ⟨j, hj⟩
    · omega
    · rw [hnew] at hj
      exact absurd hj (by simp)
  | reused k n hl hnew hk hslot _ => exact iff_of_true rfl ⟨hl, hnew, .inl ⟨k, hk, hslot⟩⟩
  | grown m _ _ hl hnew hm h0 _ _ _ _ => exact iff_of_true rfl ⟨hl, hnew, .inr ⟨m, hm, h0⟩⟩
  | full _ _ _ hfull hptr _ _ _ =>
    refine iff_of_false (by decide) ?_
    rintro ⟨-, -, ⟨k, hk, hslot⟩ | ⟨m, hm, h0⟩⟩
    · rw [hfull k hk] at hslot
      exact absurd hslot (by decide)
    · exact hptr m hm h0

end Consequences

end Rufs
