import Cs416.Rufs.Model

/-!
# The volume on a disk

`Vol` is what a mounted disk holds, by region: the two bitmaps, the inode table and the data
blocks. `Fs.vol` reads it off the bytes, and the lemmas below say that each primitive of the
file system acts on one region and is a function update there: the regions are disjoint, and
so are the inodes that share a block. Everything above this module argues about `Vol`.
-/

open ByteMem Scan

namespace Rufs

/-- The regions of a volume. Data blocks are indexed by their block number. -/
@[ext] structure Vol where
  ibit : ℕ → Bool
  dbit : ℕ → Bool
  inode : ℕ → Inode
  data : ℕ → Block

namespace Vol

/-- Set inode bit `i`. -/
def markIno (v : Vol) (i : ℕ) : Vol := { v with ibit := Function.update v.ibit i true }
/-- Set data bit `j`. -/
def markBlk (v : Vol) (j : ℕ) : Vol := { v with dbit := Function.update v.dbit j true }
/-- Store inode `i`. -/
def setInode (v : Vol) (i : ℕ) (n : Inode) : Vol :=
  { v with inode := Function.update v.inode i n.norm }
/-- Store data block `b`. -/
def setData (v : Vol) (b : ℕ) (blk : Block) : Vol :=
  { v with data := Function.update v.data b blk }

section Projections

variable (v : Vol) (i j b : ℕ) (n : Inode) (blk : Block)

@[simp] theorem markIno_ibit : (v.markIno i).ibit = Function.update v.ibit i true := rfl
@[simp] theorem markIno_dbit : (v.markIno i).dbit = v.dbit := rfl
@[simp] theorem markIno_inode : (v.markIno i).inode = v.inode := rfl
@[simp] theorem markIno_data : (v.markIno i).data = v.data := rfl
@[simp] theorem markBlk_ibit : (v.markBlk j).ibit = v.ibit := rfl
@[simp] theorem markBlk_dbit : (v.markBlk j).dbit = Function.update v.dbit j true := rfl
@[simp] theorem markBlk_inode : (v.markBlk j).inode = v.inode := rfl
@[simp] theorem markBlk_data : (v.markBlk j).data = v.data := rfl
@[simp] theorem setInode_ibit : (v.setInode i n).ibit = v.ibit := rfl
@[simp] theorem setInode_dbit : (v.setInode i n).dbit = v.dbit := rfl
@[simp] theorem setInode_inode : (v.setInode i n).inode = Function.update v.inode i n.norm := rfl
@[simp] theorem setInode_data : (v.setInode i n).data = v.data := rfl
@[simp] theorem setData_ibit : (v.setData b blk).ibit = v.ibit := rfl
@[simp] theorem setData_dbit : (v.setData b blk).dbit = v.dbit := rfl
@[simp] theorem setData_inode : (v.setData b blk).inode = v.inode := rfl
@[simp] theorem setData_data : (v.setData b blk).data = Function.update v.data b blk := rfl

end Projections

end Vol

/-- The block of inode `i`. -/
abbrev inodeBlk (i : ℕ) : ℕ := 3 + i / inodesPerBlock

theorem inodeBlk_lt {i : ℕ} (hi : i < maxInum) : inodeBlk i < 67 := by
  unfold maxInum at hi
  unfold inodeBlk inodesPerBlock blockSize inodeSize
  omega

theorem le_inodeBlk (i : ℕ) : 3 ≤ inodeBlk i := Nat.le_add_right _ _

namespace Fs

variable {s : Fs}

/-- The volume on the disk, for the superblock of `rufs_mkfs`. -/
def vol (s : Fs) : Vol where
  ibit := bit (s.disk 1)
  dbit := bit (s.disk 2)
  inode i := if i < maxInum then
      window (s.disk (inodeBlk i)) (i % inodesPerBlock * inodeSize) inodeSize
    else zeroBlock
  data b := if b < 67 then zeroBlock else s.disk b

theorem vol_ibit (s : Fs) : s.vol.ibit = bit (s.disk 1) := rfl
theorem vol_dbit (s : Fs) : s.vol.dbit = bit (s.disk 2) := rfl

theorem vol_inode {i : ℕ} (hi : i < maxInum) (s : Fs) : s.vol.inode i =
    window (s.disk (inodeBlk i)) (i % inodesPerBlock * inodeSize) inodeSize :=
  if_pos hi

theorem vol_inode_of_le {i : ℕ} (hi : maxInum ≤ i) (s : Fs) : s.vol.inode i = zeroBlock :=
  if_neg (not_lt.mpr hi)

theorem vol_data {b : ℕ} (hb : 67 ≤ b) (s : Fs) : s.vol.data b = s.disk b :=
  if_neg (not_lt.mpr hb)

theorem vol_data_of_lt {b : ℕ} (hb : b < 67) (s : Fs) : s.vol.data b = zeroBlock := if_pos hb

/-- The superblock in memory is the one of `rufs_mkfs`, and so is the one on disk. -/
structure Mounted (s : Fs) : Prop where
  sb : s.sb = .fresh
  disk : Superblock.decode (s.disk 0) = .fresh

theorem bioWrite_self (s : Fs) (b : ℕ) (blk : Block) : (s.bioWrite b blk).disk b = blk := by
  simp [Fs.bioWrite]

theorem bioWrite_of_ne (s : Fs) {b c : ℕ} (h : c ≠ b) (blk : Block) :
    (s.bioWrite b blk).disk c = s.disk c := by
  simp [Fs.bioWrite, h]

theorem Mounted.bioWrite (h : s.Mounted) {b : ℕ} (hb : b ≠ 0) (blk : Block) :
    (s.bioWrite b blk).Mounted where
  sb := h.sb
  disk := by
    rw [bioWrite_of_ne s hb.symm]
    exact h.disk

/-- A write in front of the inode table does not touch an inode. -/
theorem vol_bioWrite_inodes (s : Fs) {b : ℕ} (hb : b < 3 ∨ 67 ≤ b) (blk : Block) :
    (s.bioWrite b blk).vol.inode = s.vol.inode := by
  funext i
  rcases lt_or_ge i maxInum with hi | hi
  · have hle := le_inodeBlk i
    have hlt := inodeBlk_lt hi
    rw [vol_inode hi, vol_inode hi, bioWrite_of_ne s (by omega)]
  · rw [vol_inode_of_le hi, vol_inode_of_le hi]

/-- A write in front of the data region does not touch a data block. -/
theorem vol_bioWrite_blocks (s : Fs) {b : ℕ} (hb : b < 67) (blk : Block) :
    (s.bioWrite b blk).vol.data = s.vol.data := by
  funext c
  rcases lt_or_ge c 67 with hc | hc
  · rw [vol_data_of_lt hc, vol_data_of_lt hc]
  · rw [vol_data hc, vol_data hc, bioWrite_of_ne s (by omega)]

theorem vol_bioWrite_ibitmap (s : Fs) (i : ℕ) :
    (s.bioWrite 1 (setBitmap (s.disk 1) i)).vol = s.vol.markIno i := by
  refine Vol.ext ?_ ?_ (vol_bioWrite_inodes s (by decide) _) (vol_bioWrite_blocks s (by decide) _)
  · rw [Vol.markIno_ibit, vol_ibit, vol_ibit, bioWrite_self, bit_setBitmap]
  · rw [Vol.markIno_dbit, vol_dbit, vol_dbit, bioWrite_of_ne s (by decide)]

theorem vol_bioWrite_dbitmap (s : Fs) (j : ℕ) :
    (s.bioWrite 2 (setBitmap (s.disk 2) j)).vol = s.vol.markBlk j := by
  refine Vol.ext ?_ ?_ (vol_bioWrite_inodes s (by decide) _) (vol_bioWrite_blocks s (by decide) _)
  · rw [Vol.markBlk_ibit, vol_ibit, vol_ibit, bioWrite_of_ne s (by decide)]
  · rw [Vol.markBlk_dbit, vol_dbit, vol_dbit, bioWrite_self, bit_setBitmap]

theorem vol_bioWrite_data (s : Fs) {b : ℕ} (hb : 67 ≤ b) (blk : Block) :
    (s.bioWrite b blk).vol = s.vol.setData b blk := by
  refine Vol.ext ?_ ?_ (vol_bioWrite_inodes s (.inr hb) _) ?_
  · rw [Vol.setData_ibit, vol_ibit, vol_ibit, bioWrite_of_ne s (by omega)]
  · rw [Vol.setData_dbit, vol_dbit, vol_dbit, bioWrite_of_ne s (by omega)]
  · funext c
    rw [Vol.setData_data]
    by_cases hc : c = b
    · rw [hc, Function.update_self, vol_data hb, bioWrite_self]
    · rw [Function.update_of_ne hc]
      rcases lt_or_ge c 67 with hlt | hle
      · rw [vol_data_of_lt hlt, vol_data_of_lt hlt]
      · rw [vol_data hle, vol_data hle, bioWrite_of_ne s hc]

/-- Two inodes of one block have windows that do not overlap. -/
theorem vol_bioWrite_inode (s : Fs) {i : ℕ} (hi : i < maxInum) (n : Inode) :
    (s.bioWrite (inodeBlk i) (memcpy (s.disk (inodeBlk i)) (i % inodesPerBlock * inodeSize) n
      inodeSize)).vol = s.vol.setInode i n := by
  have hlt := inodeBlk_lt hi
  have hle := le_inodeBlk i
  refine Vol.ext ?_ ?_ ?_ (vol_bioWrite_blocks s hlt _)
  · rw [Vol.setInode_ibit, vol_ibit, vol_ibit, bioWrite_of_ne s (by omega)]
  · rw [Vol.setInode_dbit, vol_dbit, vol_dbit, bioWrite_of_ne s (by omega)]
  · funext k
    rw [Vol.setInode_inode]
    by_cases hk : k = i
    · rw [hk, Function.update_self, vol_inode hi, bioWrite_self, window_memcpy_self]
      rfl
    rw [Function.update_of_ne hk]
    rcases lt_or_ge k maxInum with hlt' | hge
    · rw [vol_inode hlt', vol_inode hlt']
      by_cases hb : inodeBlk k = inodeBlk i
      · rw [hb, bioWrite_self, window_memcpy_of_disjoint]
        unfold inodeBlk inodesPerBlock blockSize inodeSize at *
        omega
      · rw [bioWrite_of_ne s hb]
    · rw [vol_inode_of_le hge, vol_inode_of_le hge]

end Fs

/-! ### The primitives -/

section Primitives

variable {s : Fs}

theorem readi_of_lt (h : s.Mounted) {i : ℕ} (hi : i < maxInum) :
    readi s i = (if (s.vol.inode i).valid = 0 then none else some (s.vol.inode i),
      [.read (inodeBlk i)]) := by
  unfold readi
  rw [h.sb, if_neg (show ¬ i ≥ Superblock.fresh.maxInum from not_le.mpr hi), Fs.vol_inode hi]
  rfl

theorem readi_of_le (h : s.Mounted) {i : ℕ} (hi : maxInum ≤ i) : readi s i = (none, []) := by
  unfold readi
  rw [h.sb]
  exact if_pos hi

theorem readi_eq (h : s.Mounted) (i : ℕ) :
    (readi s i).1 = if (s.vol.inode i).valid = 0 then none else some (s.vol.inode i) := by
  rcases lt_or_ge i maxInum with hi | hi
  · rw [readi_of_lt h hi]
  · rw [readi_of_le h hi, Fs.vol_inode_of_le hi, if_pos]
    exact loadLe_zero 2 2

theorem writei_eq (h : s.Mounted) {i : ℕ} (hi : i < maxInum) (n : Inode) :
    ∃ s', writei s i n = (s', [.read (inodeBlk i), .write .writei (inodeBlk i)]) ∧ s'.Mounted ∧
      s'.vol = s.vol.setInode i n := by
  refine ⟨_, ?_, ?_, Fs.vol_bioWrite_inode s hi n⟩
  · unfold writei
    rw [h.sb, if_neg (show ¬ i ≥ Superblock.fresh.maxInum from not_le.mpr hi)]
    rfl
  · have hle := le_inodeBlk i
    exact h.bioWrite (by omega) _

/-- The allocators look for a clear bit. -/
theorem firstIdx_getBitmap (b : Block) (n : ℕ) :
    firstIdx (fun i => getBitmap b i == 0) 0 n = firstIdx (fun i => !bit b i) 0 n := by
  refine firstIdx_congr fun i _ _ => ?_
  rw [getBitmap_eq]
  cases bit b i <;> rfl

theorem getAvailIno_cases (h : s.Mounted) :
    (∃ i s', getAvailIno s = (some i, s', [.read 1, .write .getAvailIno 1]) ∧ s'.Mounted ∧
      i < maxInum ∧ s.vol.ibit i = false ∧ s'.vol = s.vol.markIno i) ∨
    (getAvailIno s = (none, s, [.read 1]) ∧ ∀ i < maxInum, s.vol.ibit i = true) := by
  unfold getAvailIno
  rw [h.sb]
  dsimp only [Superblock.fresh]
  rw [firstIdx_getBitmap, ← Fs.vol_ibit]
  cases hf : firstIdx (fun i => !s.vol.ibit i) 0 maxInum with
  | some i =>
    obtain ⟨-, hi, hbit, -⟩ := firstIdx_eq_some.mp hf
    exact .inl ⟨i, _, rfl, h.bioWrite (by decide) _, by omega, by simpa using hbit,
      Fs.vol_bioWrite_ibitmap s i⟩
  | none =>
    refine .inr ⟨rfl, fun i hi => ?_⟩
    simpa using firstIdx_eq_none.mp hf i (Nat.zero_le _) (by omega)

theorem getAvailBlkno_cases (h : s.Mounted) :
    (∃ j s', getAvailBlkno s = (some (67 + j), s',
        [.read 2, .write .getAvailBlkno 2, .allocBlk (s.disk 2) (some (67 + j))]) ∧
      s'.Mounted ∧ j < maxDnum ∧ s.vol.dbit j = false ∧ (∀ k < j, s.vol.dbit k = true) ∧
      s'.vol = s.vol.markBlk j) ∨
    (getAvailBlkno s = (none, s, [.read 2, .allocBlk (s.disk 2) none]) ∧
      ∀ j < maxDnum, s.vol.dbit j = true) := by
  unfold getAvailBlkno
  rw [h.sb]
  dsimp only [Superblock.fresh]
  rw [firstIdx_getBitmap, ← Fs.vol_dbit]
  cases hf : firstIdx (fun j => !s.vol.dbit j) 0 maxDnum with
  | some j =>
    obtain ⟨-, hj, hbit, hfirst⟩ := firstIdx_eq_some.mp hf
    exact .inl ⟨j, _, rfl, h.bioWrite (by decide) _, by omega, by simpa using hbit,
      fun k hk => by simpa using hfirst k (Nat.zero_le _) hk, Fs.vol_bioWrite_dbitmap s j⟩
  | none =>
    refine .inr ⟨rfl, fun j hj => ?_⟩
    simpa using firstIdx_eq_none.mp hf j (Nat.zero_le _) (by omega)

end Primitives

end Rufs
