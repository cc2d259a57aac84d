import Cs416.Lib.RecordTable
import Cs416.Rufs.Model

/-!
# The inode table as a codec

`readi` and `writei` find an inode by dividing by the number of inodes in a block, and
`rufs_mkfs` rounds the size of the region up on its own. Here the two functions take
`sizeof(struct inode)` as a parameter, so nothing depends on how the target lays `struct stat`
out; at `256` they are the functions of the model (`readi_eq_sized`, `writei_eq_sized`).

Both instantiate the table of records of `Cs416.Lib.RecordTable`.
-/

open ByteMem RecordTable

namespace Rufs

/-! ### The functions for any inode size -/

section Sized

variable (isz : ℕ)

/-- `readi`, with its return code and `*inode` where it was stored. -/
def readiSized (s : Fs) (ino : ℕ) : ℤ × Option Inode × List Event :=
  if ino ≥ s.sb.maxInum then (-eNoent, none, [])
  else
    let inodesPerBlock := blockSize / isz
    let blockNum := s.sb.iStartBlk + ino / inodesPerBlock
    let offset := ino % inodesPerBlock * isz
    let inode : Inode := window (s.disk blockNum) offset isz
    (if inode.valid = 0 then -eNoent else 0, some inode, [.read blockNum])

/-- `writei`, with its return code. -/
def writeiSized (s : Fs) (ino : ℕ) (inode : Inode) : ℤ × Fs × List Event :=
  if ino ≥ s.sb.maxInum then (-1, s, [])
  else
    let inodesPerBlock := blockSize / isz
    let blockNum := s.sb.iStartBlk + ino / inodesPerBlock
    let offset := ino % inodesPerBlock * isz
    (0, s.bioWrite blockNum (memcpy (s.disk blockNum) offset inode isz),
      [.read blockNum, .write .writei blockNum])

/-- The superblock that `rufs_mkfs` writes. -/
def mkfsLayout : Superblock where
  magicNum := magicNum
  maxInum := maxInum
  maxDnum := maxDnum
  iBitmapBlk := 1
  dBitmapBlk := 2
  iStartBlk := 3
  dStartBlk := 3 + (maxInum + blockSize / isz - 1) / (blockSize / isz)

end Sized

theorem mkfsLayout_inodeSize : mkfsLayout inodeSize = .fresh := rfl

/-- The model's `readi` drops the inode when the code is negative. -/
theorem readi_eq_sized (s : Fs) (ino : ℕ) : ∃ code inode e,
    readiSized inodeSize s ino = (code, inode, e) ∧
      readi s ino = (if code = 0 then inode else none, e) := by
  unfold readiSized readi
  by_cases h : ino ≥ s.sb.maxInum
  · rw [if_pos h, if_pos h]
    exact ⟨_, _, _, rfl, rfl⟩
  · rw [if_neg h, if_neg h]
    refine ⟨_, _, _, rfl, ?_⟩
    dsimp only
    by_cases hv : Inode.valid (window (s.disk (s.sb.iStartBlk + ino / inodesPerBlock))
        (ino % inodesPerBlock * inodeSize) inodeSize) = 0
    · rw [if_pos hv, if_pos hv]
      rfl
    · rw [if_neg hv, if_neg hv]
      rfl

theorem writei_eq_sized (s : Fs) (ino : ℕ) (inode : Inode) : ∃ code,
    writeiSized inodeSize s ino inode = (code, writei s ino inode) := by
  unfold writeiSized writei
  by_cases h : ino ≥ s.sb.maxInum
  · rw [if_pos h, if_pos h]
    exact ⟨_, rfl⟩
  · rw [if_neg h, if_neg h]
    exact ⟨_, rfl⟩

/-! ### The codec -/

/-- Inodes of `isz` bytes in blocks. -/
def inodeShape {isz : ℕ} (hpos : 0 < isz) (hle : isz ≤ blockSize) : Shape :=
  ⟨blockSize, isz, hpos, hle⟩

theorem inodeShape_size {isz : ℕ} (hpos : 0 < isz) (hle : isz ≤ blockSize) :
    (inodeShape hpos hle).size = isz := rfl

section Codec

variable {isz ino : ℕ} {s : Fs}

theorem readiSized_eq (hpos : 0 < isz) (hle : isz ≤ blockSize) (h : ino < s.sb.maxInum) :
    readiSized isz s ino =
      (if Inode.valid (fetch (inodeShape hpos hle) s.disk s.sb.iStartBlk ino) = 0
        then -eNoent else 0,
        some (fetch (inodeShape hpos hle) s.disk s.sb.iStartBlk ino),
        [.read (s.sb.iStartBlk + ino / (blockSize / isz))]) := by
  unfold readiSized
  rw [if_neg (not_le.mpr h)]
  rfl

theorem writeiSized_eq (hpos : 0 < isz) (hle : isz ≤ blockSize) (h : ino < s.sb.maxInum)
    (v : Inode) : ∃ s' e, writeiSized isz s ino v = (0, s', e) ∧ s'.sb = s.sb ∧
      s'.disk = put (inodeShape hpos hle) s.disk s.sb.iStartBlk ino v := by
  unfold writeiSized
  rw [if_neg (not_le.mpr h)]
  exact ⟨_, _, rfl, rfl, rfl⟩

/-- After `writei` of `v` to inode `a`: what `readi` returns, and which bytes are as they
were. -/
structure WroteInode (isz : ℕ) (s s' : Fs) (a : ℕ) (v : Inode) : Prop where
  /-- `readi(a)` returns `0` and `v`. -/
  self : ∃ e, readiSized isz s' a = (0, some (window v 0 isz), e)
  /-- `readi` of another inode returns what it returned before. -/
  others : ∀ b < s.sb.maxInum, b ≠ a → readiSized isz s' b = readiSized isz s b
  /-- The slot lies in the inode region, and in one block. -/
  region : s.sb.iStartBlk ≤ s.sb.iStartBlk + a / (blockSize / isz) ∧
    s.sb.iStartBlk + a / (blockSize / isz) < s.sb.dStartBlk ∧
    a % (blockSize / isz) * isz + isz ≤ blockSize
  /-- Every byte outside the slot is unchanged. -/
  frame : ∀ blk x, ¬ (blk = s.sb.iStartBlk + a / (blockSize / isz) ∧
    a % (blockSize / isz) * isz ≤ x ∧ x < a % (blockSize / isz) * isz + isz) →
      s'.disk blk x = s.disk blk x

/-- **The inode table is a codec**, for every disk image and every size of an inode that fits a
block and has room for the first two fields. -/
theorem inode_table_codec (h4 : 4 ≤ isz) (hle : isz ≤ blockSize) (hsb : s.sb = mkfsLayout isz)
    {a : ℕ} (ha : a < s.sb.maxInum) {v : Inode} (hv : v.valid ≠ 0) :
    ∃ s' e, writeiSized isz s a v = (0, s', e) ∧ WroteInode isz s s' a v := by
  have hpos : 0 < isz := by omega
  obtain ⟨s', e, hw, hsb', hdisk⟩ := writeiSized_eq hpos hle ha v
  refine ⟨s', e, hw, ⟨?_, fun b hb hne => ?_, ⟨Nat.le_add_right _ _, ?_, ?_⟩, fun blk x hout => ?_⟩⟩
  · have hvalid : Inode.valid (window v 0 isz) ≠ 0 := by
      have hfield : Inode.valid (window v 0 isz) = v.valid := by
        unfold Inode.valid
        rw [loadLe_window v h4, Nat.zero_add]
      rwa [hfield]
    rw [readiSized_eq hpos hle (by rwa [hsb']), hdisk, hsb', fetch_put_self,
      inodeShape_size, if_neg hvalid]
    exact ⟨_, rfl⟩
  · rw [readiSized_eq hpos hle (by rwa [hsb']), readiSized_eq hpos hle hb, hdisk, hsb',
      fetch_put_of_ne _ _ hne]
  · have hlt := (inodeShape hpos hle).slotBlock_lt ha
    rw [hsb] at hlt ⊢
    exact Nat.add_lt_add_left hlt _
  · exact (inodeShape hpos hle).slotOff_le a
  · rw [hdisk]
    exact put_frame _ _ _ _ hout

end Codec

/-- A disk of zeros with the layout of the target. -/
def blankFs : Fs := { disk := fun _ => zeroBlock, sb := .fresh }

theorem inode_table_codec_first : ∃ s' e,
    writeiSized 256 blankFs 5 (Inode.fresh 5 sIfreg 1) = (0, s', e) ∧
      WroteInode 256 blankFs s' 5 (Inode.fresh 5 sIfreg 1) :=
  inode_table_codec (by decide) (by decide) rfl (by decide) (by decide +kernel)

end Rufs
