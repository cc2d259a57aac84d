import Cs416.Rufs.Write

/-!
# `rufs_write` and `rufs_read` as whole operations

`Written` is what a successful `rufs_write` did to the volume: the loop of `Cs416.Rufs.Write`,
then the in-memory inode is stored. From it follow ownership, the ledger, the new size and the
new content. `readLoop_spec` is the other direction: where the pointers are set, the loop of
`rufs_read` copies the content.
-/

open ByteMem Scan

namespace Rufs

/-! ### The inode that is written back -/

section WriteTouch

variable {n : Inode} {endPos t : ℕ}

theorem sameCore_setSizes (n : Inode) (x y : ℕ) : n.SameCore ((n.setSize x).setStSize y) := by
  unfold Inode.setStSize Inode.setSize
  refine ⟨?_, ?_, ?_, fun k hk => ?_⟩
  · unfold Inode.ino
    rw [loadLe_storeLe_of_disjoint _ (by omega), loadLe_storeLe_of_disjoint _ (by omega)]
  · unfold Inode.valid
    rw [loadLe_storeLe_of_disjoint _ (by omega), loadLe_storeLe_of_disjoint _ (by omega)]
  · unfold Inode.stMode
    rw [loadLe_storeLe_of_disjoint _ (by omega), loadLe_storeLe_of_disjoint _ (by omega)]
  · unfold numPtrs at hk
    unfold Inode.directPtr
    rw [loadLe_storeLe_of_disjoint _ (by omega), loadLe_storeLe_of_disjoint _ (by omega)]

theorem sameCore_setStMtime (n : Inode) (t : ℕ) : n.SameCore (n.setStMtime t) := by
  unfold Inode.setStMtime
  refine ⟨?_, ?_, ?_, fun k hk => ?_⟩
  · exact loadLe_storeLe_of_disjoint _ (by omega)
  · exact loadLe_storeLe_of_disjoint _ (by omega)
  · exact loadLe_storeLe_of_disjoint _ (by omega)
  · unfold numPtrs at hk
    exact loadLe_storeLe_of_disjoint _ (by omega)

theorem sameCore_writeTouch (n : Inode) (endPos t : ℕ) : n.SameCore (writeTouch n endPos t) := by
  unfold writeTouch
  dsimp only
  split
  · exact (sameCore_setSizes n _ _).trans (sameCore_setStMtime _ t)
  · exact sameCore_setStMtime n t

/-- The two size fields stay equal, and grow to the end of the data while that fits. -/
theorem size_writeTouch (n : Inode) (endPos t : ℕ) :
    (writeTouch n endPos t).size = (if endPos > n.size then endPos % 2 ^ 32 else n.size) ∧
      (writeTouch n endPos t).stSize =
        if endPos > n.size then endPos % 2 ^ 32 else n.stSize := by
  have hsize : (n.setSize endPos).size = endPos % 2 ^ 32 := loadLe_storeLe_mod _ _ _ _
  have htime : ∀ m : Inode, (m.setStMtime t).size = m.size ∧ (m.setStMtime t).stSize = m.stSize :=
    fun m => ⟨loadLe_storeLe_of_disjoint _ (by omega), loadLe_storeLe_of_disjoint _ (by omega)⟩
  unfold writeTouch
  dsimp only
  rw [(htime _).1, (htime _).2]
  split
  · rw [hsize]
    constructor
    · rw [← hsize]
      exact loadLe_storeLe_of_disjoint _ (by omega)
    · exact loadLe_storeLe _ _ _ (by omega)
  · exact ⟨rfl, rfl⟩

end WriteTouch

/-! ### Writing -/

/-- The position at which `rufs_write` starts. It is the offset, unless the block number does
not fit an `int`. -/
def writePos (offset : ℕ) : ℕ := offset / blockSize % 2 ^ 32 * blockSize + offset % blockSize

theorem writePos_eq {offset : ℕ} (h : offset < 2 ^ 43) : writePos offset = offset := by
  unfold writePos blockSize
  omega

/-- `len` bytes of `src` were written to file `f` at `pos`, and the inode was written back
with the data ending at `endPos`. -/
def Written (N : ℕ) (v : Vol) (f pos len endPos now : ℕ) (src : Bytes) (v' : Vol) : Prop :=
  ∃ v₁ n, Pending N f v₁ n ∧ Wrote f v (v.inode f) v₁ n pos len src ∧
    v' = v₁.setInode f (writeTouch n endPos now)

section Written

variable {N f pos len endPos now i k p : ℕ} {v v' : Vol} {src : Bytes}

theorem Written.ibit (h : Written N v f pos len endPos now src v') : v'.ibit = v.ibit := by
  obtain ⟨v₁, n, -, hw, rfl⟩ := h
  exact hw.ibit

theorem Written.inode_of_ne (h : Written N v f pos len endPos now src v') (hne : i ≠ f) :
    v'.inode i = v.inode i := by
  obtain ⟨v₁, n, -, hw, rfl⟩ := h
  rw [v₁.setInode_of_ne hne, hw.inode]

/-- The inode of the file: its identity stays. -/
theorem Written.self (h : Written N v f pos len endPos now src v') :
    (v'.inode f).valid = (v.inode f).valid ∧ (v'.inode f).stMode = (v.inode f).stMode ∧
      (v'.inode f).ino = (v.inode f).ino := by
  obtain ⟨v₁, n, -, hw, rfl⟩ := h
  have hc := (sameCore_writeTouch n endPos now).trans (writeTouch n endPos now).sameCore_norm
  rw [Vol.setInode_self]
  exact ⟨hc.valid.trans hw.meta_.valid, hc.stMode.trans hw.meta_.stMode,
    hc.ino.trans hw.meta_.ino⟩

theorem Written.size (h : Written N v f pos len endPos now src v') :
    (v'.inode f).size = (if endPos > (v.inode f).size then endPos % 2 ^ 32 else (v.inode f).size) ∧
      (v'.inode f).stSize =
        if endPos > (v.inode f).size then endPos % 2 ^ 32 else (v.inode f).stSize := by
  obtain ⟨v₁, n, -, hw, rfl⟩ := h
  rw [Vol.setInode_self, Inode.size_norm, Inode.stSize_norm, ← hw.meta_.size, ← hw.meta_.stSize]
  exact size_writeTouch n endPos now

theorem Written.ptr_set (h : Written N v f pos len endPos now src v') (hend : pos + len ≤ maxFile)
    (hl : pos ≤ p) (hu : p < pos + len) : v'.ptr f (p / blockSize) ≠ 0 := by
  obtain ⟨v₁, n, -, hw, rfl⟩ := h
  have hc := (sameCore_writeTouch n endPos now).trans (writeTouch n endPos now).sameCore_norm
  rw [Vol.ptr, Vol.setInode_self, hc.directPtr _ (div_blockSize_lt (by omega))]
  exact hw.ptr_set p hl hu

theorem Written.content (h : Written N v f pos len endPos now src v') (hp : p < maxFile) :
    content v' (v'.inode f) p =
      if pos ≤ p ∧ p < pos + len then src (p - pos) else content v (v.inode f) p := by
  obtain ⟨v₁, n, -, hw, rfl⟩ := h
  have hc := (sameCore_writeTouch n endPos now).trans (writeTouch n endPos now).sameCore_norm
  rw [Vol.setInode_self, ← hw.content p hp]
  exact content_congr (hc.directPtr _ (div_blockSize_lt hp)) fun _ => rfl

theorem Written.others (h : Written N v f pos len endPos now src v') (hne : i ≠ f)
    (hi : v.Valid i) (hk : k < numPtrs) (hp : v.ptr i k ≠ 0) :
    v'.data (v.ptr i k) = v.data (v.ptr i k) := by
  obtain ⟨v₁, n, -, hw, rfl⟩ := h
  exact hw.others i k hne hi hk hp

theorem Written.valid_iff (h : Written N v f pos len endPos now src v') (i : ℕ) :
    v'.Valid i ↔ v.Valid i := by
  by_cases hne : i = f
  · rw [hne, Vol.Valid, h.self.1]
  · rw [Vol.Valid, h.inode_of_ne hne]

theorem Written.stMode (h : Written N v f pos len endPos now src v') (i : ℕ) :
    (v'.inode i).stMode = (v.inode i).stMode := by
  by_cases hne : i = f
  · rw [hne, h.self.2.1]
  · rw [h.inode_of_ne hne]

theorem Written.isDir (h : Written N v f pos len endPos now src v') (i : ℕ) :
    (v'.inode i).isDir = (v.inode i).isDir := by
  rw [Inode.isDir, Inode.isDir, h.stMode]

theorem Written.rooted (h : Written N v f pos len endPos now src v') (hr : v.Rooted) :
    v'.Rooted where
  valid := (h.valid_iff 0).mpr hr.valid
  isDir := (h.isDir 0).trans hr.isDir

theorem Written.keeps (h : Written N v f pos len endPos now src v') :
    Owned N v' ∧ Charged v' 0 := by
  obtain ⟨v₁, n, hpend, hw, rfl⟩ := h
  have hcore : ((v₁.setInode f n).inode f).SameCore (writeTouch n endPos now) := by
    have hc := sameCore_writeTouch n endPos now
    have hn := n.sameCore_norm
    rw [Vol.setInode_self]
    exact ⟨hc.ino.trans hn.ino.symm, hc.valid.trans hn.valid.symm, hc.stMode.trans hn.stMode.symm,
      fun k hk => (hc.directPtr k hk).trans (hn.directPtr k hk).symm⟩
  have hidem : (v₁.setInode f n).setInode f (writeTouch n endPos now)
      = v₁.setInode f (writeTouch n endPos now) := by
    unfold Vol.setInode
    rw [Function.update_idem]
  rw [← hidem]
  exact ⟨hpend.owned.touch hpend.valid' hcore, hpend.charged.touch hpend.lt hpend.valid' hcore⟩

end Written

/-- Before the loop nothing is pending. -/
theorem Pending.start {N f : ℕ} {v : Vol} (ho : Owned N v) (hc : Charged v 0) (hf : v.Valid f) :
    Pending N f v (v.inode f) := by
  have hcore : (v.inode f).SameCore (v.inode f) := ⟨rfl, rfl, rfl, fun _ _ => rfl⟩
  exact ⟨hf, hf, ho.touch hf hcore, hc.touch (ho.ibit_of_valid f hf).1 hf hcore⟩

section WriteSpec

variable {N : ℕ} {s s' : Fs} {path : CPath} {buffer : Bytes} {size offset : ℕ} {env : Env} {r : ℤ}
  {e : List Event}

/-- The loop from the start block, which may lie behind the last one. -/
theorem writeLoop_start (hm : s.Mounted) {f : ℕ} (hpend : Pending N f s.vol (s.vol.inode f))
    (had : Admits N (writeLoop buffer size (numPtrs - offset / blockSize % 2 ^ 32)
      (offset / blockSize % 2 ^ 32) s (s.vol.inode f) (offset % blockSize) 0).2.2) :
    ∃ n s' e len, writeLoop buffer size (numPtrs - offset / blockSize % 2 ^ 32)
        (offset / blockSize % 2 ^ 32) s (s.vol.inode f) (offset % blockSize) 0
          = (some (n, len), s', e) ∧
      s'.Mounted ∧ Pending N f s'.vol n ∧ EventsOk N e ∧
      len = min size (maxFile - writePos offset) ∧
      Wrote f s.vol (s.vol.inode f) s'.vol n (writePos offset) len buffer := by
  -- the narrowed start block is inside the file or behind it
  rcases le_or_gt (offset / blockSize % 2 ^ 32) numPtrs with hle | hgt
  · obtain ⟨n, s', e, len, hloop, hm', hpend', hev, hlen, hw⟩ :=
      writeLoop_spec _ _ s _ (offset % blockSize) 0 hm hpend (Nat.add_sub_cancel' hle)
        (Nat.mod_lt _ (by decide)) had
    refine ⟨n, s', e, len, by rw [hloop, Nat.zero_add], hm', hpend', hev, ?_, ?_⟩
    · rw [hlen]
      unfold writePos maxFile numPtrs blockSize at *
      omega
    · unfold writePos
      simpa only [Nat.zero_add] using hw
  -- behind it the loop does not run
  · rw [Nat.sub_eq_zero_of_le hgt.le]
    refine ⟨_, s, [], 0, rfl, hm, hpend, eventsOk_nil, ?_, .refl _ _ _ _ _⟩
    unfold writePos maxFile
    have : numPtrs * blockSize ≤ offset / blockSize % 2 ^ 32 * blockSize :=
      Nat.mul_le_mul_right _ hgt.le
    omega

/-- **What `rufs_write` does.** -/
theorem rufsWrite_spec (hm : s.Mounted) (ho : Owned N s.vol) (hr : s.vol.Rooted)
    (hc : Charged s.vol 0) (h : rufsWrite s path.bytes buffer size offset env = some (r, s', e))
    (had : Admits N e) :
    s'.Mounted ∧ EventsOk N e ∧
      ((s' = s ∧ r < 0 ∧ ∀ f, s.vol.resolve (tokens path.bytes) = some f →
          (s.vol.inode f).isReg = false) ∨
       ∃ (f len : ℕ), s.vol.resolve (tokens path.bytes) = some f ∧
          (s.vol.inode f).isReg = true ∧ r = len ∧ len = min size (maxFile - writePos offset) ∧
          Written N s.vol f (writePos offset) len (offset + len) env.now buffer s'.vol) := by
  obtain ⟨hnode, hev⟩ := getNodeByPath_spec hm ho hr path.short
  unfold rufsWrite at h
  -- no such path
  rcases hg : getNodeByPath s path.bytes 0 with ⟨_ | file, e₀⟩
  · rw [hg] at hnode hev h
    obtain ⟨rfl, rfl, rfl⟩ : r = -eNoent ∧ s' = s ∧ e = e₀ := by simpa [eq_comm] using h
    refine ⟨hm, hev, .inl ⟨rfl, by decide, fun f hf => ?_⟩⟩
    rw [hf] at hnode
    exact absurd hnode (by simp)
  rw [hg] at hnode hev h
  obtain ⟨f, hres, rfl⟩ := Option.map_eq_some_iff.mp hnode.symm
  dsimp only at h hev
  -- the path is no regular file
  by_cases hreg : (s.vol.inode f).isReg = false
  · rw [if_pos hreg] at h
    obtain ⟨rfl, rfl, rfl⟩ : r = -eIsdir ∧ s' = s ∧ e = e₀ := by simpa [eq_comm] using h
    refine ⟨hm, hev, .inl ⟨rfl, by decide, fun f' hf' => ?_⟩⟩
    rw [hres] at hf'
    obtain rfl := Option.some.inj hf'
    exact hreg
  rw [if_neg hreg] at h
  -- a negative index with something to store has no defined effect
  by_cases hub : offset / blockSize % 2 ^ 32 ≥ 2 ^ 31 ∧ 0 < size
  · rw [if_pos hub] at h
    exact absurd h (by simp)
  rw [if_neg hub] at h
  have hvalid := Vol.resolve_valid hr hres
  have hpend := Pending.start ho hc hvalid
  -- the blocks the loop takes are those of the whole call
  have had₁ : Admits N (writeLoop buffer size (numPtrs - offset / blockSize % 2 ^ 32)
      (offset / blockSize % 2 ^ 32) s (s.vol.inode f) (offset % blockSize) 0).2.2 := by
    rcases hl : writeLoop buffer size (numPtrs - offset / blockSize % 2 ^ 32)
      (offset / blockSize % 2 ^ 32) s (s.vol.inode f) (offset % blockSize) 0
      with ⟨_ | ⟨n, w⟩, s₁, e₁⟩
    · rw [hl] at h
      obtain ⟨-, -, rfl⟩ : r = -eNospc ∧ s' = s₁ ∧ e = e₀ ++ e₁ := by simpa [eq_comm] using h
      exact had.right
    · rw [hl] at h
      obtain ⟨-, -, rfl⟩ : r = w ∧ s' = _ ∧ e = e₀ ++ e₁ ++ _ := by simpa [eq_comm] using h
      exact had.left.right
  obtain ⟨n, s₁, e₁, len, hloop, hm₁, hpend₁, hev₁, hlen, hw⟩ := writeLoop_start hm hpend had₁
  rw [hloop] at h
  -- the loop keeps the inode's number, so `writei` stores it where it came from
  have hino : n.ino = f := hw.meta_.ino.trans (ho.ino_self f hvalid)
  obtain ⟨s₂, hwi, hm₂, hvol₂⟩ := writei_eq hm₁ hpend₁.lt (writeTouch n (offset + len) env.now)
  dsimp only at h
  rw [hino, hwi] at h
  obtain ⟨rfl, rfl, rfl⟩ : r = len ∧ s' = s₂ ∧ e = e₀ ++ e₁ ++
      [.read (inodeBlk f), .write .writei (inodeBlk f)] := by simpa [eq_comm] using h
  refine ⟨hm₂, ?_, .inr ⟨f, len, hres, by simpa using hreg, rfl, hlen, s₁.vol, n, hpend₁, hw, hvol₂⟩⟩
  exact eventsOk_append.mpr ⟨eventsOk_append.mpr ⟨hev, hev₁⟩, inodeBlk_events hpend₁.lt⟩

end WriteSpec

/-! ### Reading -/

section Read

variable {N : ℕ} {s : Fs} {file : Inode} {size : ℕ}

theorem readLoop_events (hp : ∀ k < numPtrs, file.directPtr k ≠ 0 → file.directPtr k < 67 + N)
    (m i off r : ℕ) (buffer : Bytes) (hi : i + m ≤ numPtrs) :
    EventsOk N (readLoop s file size m i off r buffer).2 := by
  induction m generalizing i off r buffer with
  | zero => exact eventsOk_nil
  | succ m ih =>
    rw [readLoop]
    dsimp only
    split
    · split
      · exact eventsOk_nil
      · next h0 => exact eventsOk_cons.mpr ⟨hp i (by omega) h0, ih _ _ _ _ (by omega)⟩
    · exact eventsOk_nil

/-- How far the loop of `rufs_read` gets when `want` bytes are asked for at `pos`: it reads
`len` of them, and stops earlier only at the end of the pointers or at one that is not set. -/
structure ReadsUpTo (file : Inode) (pos want len : ℕ) : Prop where
  le : len ≤ want
  set : ∀ p, pos ≤ p → p < pos + len → file.directPtr (p / blockSize) ≠ 0
  stop : len < want → maxFile ≤ pos + len ∨ file.directPtr ((pos + len) / blockSize) = 0
  /-- An early stop is at the start of a block. -/
  aligned : len < want → len = 0 ∨ (pos + len) % blockSize = 0
  fits : 0 < len → pos + len ≤ maxFile

theorem readsUpTo_zero {pos : ℕ} : ReadsUpTo file pos 0 0 where
  le := le_rfl
  set p hl hu := by omega
  stop h := absurd h (lt_irrefl 0)
  aligned h := absurd h (lt_irrefl 0)
  fits h := absurd h (lt_irrefl 0)

/-- A block that is there, and what follows it. -/
theorem ReadsUpTo.block {i off want n len : ℕ} (hi : i < numPtrs) (h0 : file.directPtr i ≠ 0)
    (hn : n ≤ want) (hoff : off + n ≤ blockSize) (hmore : n < want → off + n = blockSize)
    (h : ReadsUpTo file ((i + 1) * blockSize) (want - n) len) :
    ReadsUpTo file (i * blockSize + off) want (n + len) := by
  have hle := h.le
  -- what is not delivered by this block begins the next one
  have hnext : n < want → (i + 1) * blockSize = i * blockSize + off + n := fun hlt => by
    have hend := hmore hlt
    rw [Nat.succ_mul]
    omega
  refine ⟨by omega, fun p hl hu => ?_, fun hlt => ?_, fun hlt => ?_, fun _ => ?_⟩
  -- a position in this block, or in what follows
  · rcases lt_or_ge p (i * blockSize + off + n) with hp | hp
    · have hdiv : p / blockSize = i := by
        unfold blockSize at *
        omega
      rwa [hdiv]
    · have hpos := hnext (by omega)
      exact h.set p (by omega) (by omega)
  · have hpos := hnext (by omega)
    have hstop := h.stop (by omega)
    rwa [hpos, Nat.add_assoc _ n len] at hstop
  · have hpos := hnext (by omega)
    refine .inr ?_
    rcases h.aligned (by omega) with rfl | hal
    · rw [Nat.add_zero, ← hpos]
      exact Nat.mul_mod_left _ _
    · rwa [hpos, Nat.add_assoc _ n len] at hal
  · rcases Nat.eq_zero_or_pos len with rfl | hlen
    · unfold maxFile numPtrs blockSize at *
      omega
    · have hpos := hnext (by omega)
      have hfits := h.fits hlen
      omega

/-- **The loop of `rufs_read`** copies the content, up to the first pointer that is not set. -/
theorem readLoop_upTo (hp : ∀ k < numPtrs, file.directPtr k ≠ 0 → 67 ≤ file.directPtr k)
    (m i off r : ℕ) (buffer : Bytes) (hi : i + m = numPtrs) (hoff : off < blockSize)
    (hr : r ≤ size) :
    ∃ len, ReadsUpTo file (i * blockSize + off) (size - r) len ∧
      (readLoop s file size m i off r buffer).1 = (r + len,
        memcpy buffer r (fun k => content s.vol file (i * blockSize + off + k)) len) := by
  induction m generalizing i off r buffer with
  | zero =>
    refine ⟨0, ⟨Nat.zero_le _, fun p hl hu => by omega, fun _ => .inl ?_, fun _ => .inl rfl,
      fun h => absurd h (lt_irrefl 0)⟩, ?_⟩
    · rw [maxFile, ← hi, Nat.add_zero, Nat.add_zero]
      exact Nat.le_add_right _ _
    · rw [readLoop, memcpy_zero]
      rfl
  | succ m ih =>
    rw [readLoop]
    by_cases hlt : r < size
    · rw [if_pos hlt]
      by_cases h0 : file.directPtr i = 0
      · rw [if_pos h0]
        have hdiv : (i * blockSize + off + 0) / blockSize = i := by
          unfold blockSize at *
          omega
        refine ⟨0, ⟨Nat.zero_le _, fun p hl hu => by omega, fun _ => .inr (by rwa [hdiv]),
          fun _ => .inl rfl, fun h => absurd h (lt_irrefl 0)⟩, ?_⟩
        rw [memcpy_zero]
        rfl
      · rw [if_neg h0]
        dsimp only
        have hblk : ∀ x < blockSize - off, (i * blockSize + off + x) / blockSize = i ∧
            (i * blockSize + off + x) % blockSize = off + x := by
          intro x hx
          unfold blockSize at *
          constructor <;> omega
        have hdata := Fs.vol_data (hp i (by omega) h0) s
        -- unless this block was the last, it is copied to its end
        have hlen : toCopy off (size - r) ≤ size - r ∧ off + toCopy off (size - r) ≤ blockSize ∧
            (toCopy off (size - r) < size - r → off + toCopy off (size - r) = blockSize) := by
          unfold toCopy
          omega
        generalize toCopy off (size - r) = n at hlen ⊢
        obtain ⟨hle, hfit, hmore⟩ := hlen
        obtain ⟨len, hup, heq⟩ := ih (i + 1) 0 (r + n)
          (memcpy buffer r (fun k => s.disk (file.directPtr i) (off + k)) n) (by omega) (by decide)
          (by omega)
        rw [Nat.add_zero, Nat.sub_add_eq] at hup
        have hle' := hup.le
        refine ⟨n + len, .block (by omega) h0 hle hfit hmore hup, ?_⟩
        rw [heq]
        refine Prod.ext (Nat.add_assoc _ _ _) (funext fun x => ?_)
        dsimp only
        rcases lt_or_ge x r with hx | hx
        · rw [memcpy_of_disjoint _ (by omega), memcpy_of_disjoint _ (by omega),
            memcpy_of_disjoint _ (by omega)]
        rcases lt_or_ge x (r + n) with hx' | hx'
        · -- a byte of this block
          obtain ⟨hdiv, hmod⟩ := hblk (x - r) (by omega)
          rw [memcpy_of_disjoint _ (by omega), memcpy_apply _ hx (by omega),
            memcpy_apply _ hx (by omega), content, hdiv, hmod, if_neg h0, hdata]
        rcases lt_or_ge x (r + n + len) with hx'' | hx''
        · have hpos : (i + 1) * blockSize + 0 + (x - (r + n)) = i * blockSize + off + (x - r) := by
            rw [Nat.succ_mul]
            omega
          rw [memcpy_apply _ hx' (by omega), memcpy_apply _ hx (by omega), hpos]
        · rw [memcpy_of_disjoint _ (by omega), memcpy_of_disjoint _ (by omega),
            memcpy_of_disjoint _ (by omega)]
    · rw [if_neg hlt, Nat.sub_eq_zero_of_le (not_lt.mp hlt)]
      refine ⟨0, readsUpTo_zero, ?_⟩
      rw [memcpy_zero]
      rfl

/-- Where the pointers are set, it copies everything. -/
theorem readLoop_spec (hp : ∀ k < numPtrs, file.directPtr k ≠ 0 → 67 ≤ file.directPtr k)
    (m i off r : ℕ) (buffer : Bytes) (hi : i + m = numPtrs) (hoff : off < blockSize)
    (hset : ∀ p, i * blockSize + off ≤ p → p < i * blockSize + off + (size - r) →
      file.directPtr (p / blockSize) ≠ 0)
    (hfit : size - r ≤ m * blockSize - off) (hr : r ≤ size) :
    (readLoop s file size m i off r buffer).1 = (size,
      memcpy buffer r (fun k => content s.vol file (i * blockSize + off + k)) (size - r)) := by
  obtain ⟨len, hup, heq⟩ := readLoop_upTo (s := s) hp m i off r buffer hi hoff hr
  have hle := hup.le
  have hall : len = size - r := by
    by_contra hne
    have hlt : len < size - r := by omega
    rcases hup.stop hlt with hend | h0
    · rw [maxFile, ← hi, Nat.add_mul] at hend
      omega
    · exact hset _ (Nat.le_add_right _ _) (Nat.add_lt_add_left hlt _) h0
  rw [heq, hall, Nat.add_sub_cancel' hr]

end Read

end Rufs
