import Cs416.Lib.Bitmap
import Cs416.Lib.LittleEndian
import Cs416.Lib.Scan
import Mathlib.Data.Nat.Bitwise

/-!
# The on-disk layout of RUFS

Blocks, the superblock, the two bitmaps, the inode table and directory entries, as `rufs.h`
lays them out in memory and `rufs.c` copies them to disk. A `struct` is its bytes: `struct
inode` has 256 of them on the target (the embedded `struct stat` takes 144), `struct dirent`
214, and a field is read with `loadLe` at its offset.

The functions that touch the disk also return the events they cause: the block numbers they
pass to `bio_read` and `bio_write`, with the function that issues a write, and each call of
`get_avail_blkno` with the bitmap it found and its result. Block I/O does not fail, so the
`-EIO` exits are left out; a function that returns a negative value returns `none` here.
-/

open ByteMem Scan

namespace Rufs

/-! ### Constants -/

abbrev blockSize : ℕ := 4096
/-- `DISK_SIZE` -/
abbrev diskSize : ℕ := 32 * 1024 * 1024
abbrev magicNum : ℕ := 0x5C3A
abbrev maxInum : ℕ := 1024
abbrev maxDnum : ℕ := 16384

/-- `sizeof(struct inode)` -/
abbrev inodeSize : ℕ := 256
/-- `sizeof(struct dirent)` -/
abbrev direntSize : ℕ := 214
/-- `BLOCK_SIZE / sizeof(struct inode)` -/
abbrev inodesPerBlock : ℕ := blockSize / inodeSize
/-- `BLOCK_SIZE / sizeof(struct dirent)` -/
abbrev entsPerBlk : ℕ := blockSize / direntSize
/-- The length of `name` in `struct dirent`. -/
abbrev nameMax : ℕ := 208
/-- The number of direct pointers. -/
abbrev numPtrs : ℕ := 16

/-- `S_IFMT` -/
abbrev sIfmt : ℕ := 0xF000
/-- `__S_IFDIR` -/
abbrev sIfdir : ℕ := 0x4000
/-- `__S_IFREG` -/
abbrev sIfreg : ℕ := 0x8000

/-! ### Devices and events -/

/-- The contents of a block; the first `BLOCK_SIZE` bytes count. -/
abbrev Block := Bytes

/-- The emulated disk. A block that was never written reads as zero. -/
abbrev Disk := ℕ → Block

/-- The functions that write blocks. `data` stands for the directory and file data written by
`dir_add` and `rufs_write`. -/
inductive Writer
  | mkfs | getAvailIno | getAvailBlkno | writei | data
  deriving DecidableEq

/-- A block access, or a call of `get_avail_blkno` with the bitmap block it read. -/
inductive Event
  | read (blk : ℕ)
  | write (by_ : Writer) (blk : ℕ)
  | allocBlk (bitmap : Block) (result : Option ℕ)

/-- `struct superblock` -/
structure Superblock where
  magicNum : ℕ
  maxInum : ℕ
  maxDnum : ℕ
  iBitmapBlk : ℕ
  dBitmapBlk : ℕ
  iStartBlk : ℕ
  dStartBlk : ℕ
  deriving DecidableEq

namespace Superblock

/-- The superblock at the start of a block. -/
def decode (b : Block) : Superblock where
  magicNum := loadLe b 0 4
  maxInum := loadLe b 4 2
  maxDnum := loadLe b 6 2
  iBitmapBlk := loadLe b 8 4
  dBitmapBlk := loadLe b 12 4
  iStartBlk := loadLe b 16 4
  dStartBlk := loadLe b 20 4

/-- A zeroed block with the superblock at its start. -/
def encode (sb : Superblock) : Block :=
  storeLe (storeLe (storeLe (storeLe (storeLe (storeLe (storeLe (fun _ => 0)
    0 4 sb.magicNum) 4 2 sb.maxInum) 6 2 sb.maxDnum) 8 4 sb.iBitmapBlk) 12 4 sb.dBitmapBlk)
    16 4 sb.iStartBlk) 20 4 sb.dStartBlk

/-- The superblock `rufs_mkfs` fills in. -/
def fresh : Superblock where
  magicNum := Rufs.magicNum
  maxInum := Rufs.maxInum
  maxDnum := Rufs.maxDnum
  iBitmapBlk := 1
  dBitmapBlk := 2
  iStartBlk := 3
  dStartBlk := 3 + (Rufs.maxInum + inodesPerBlock - 1) / inodesPerBlock

theorem fresh_dStartBlk : fresh.dStartBlk = 67 := rfl

/-- What `rufs_mkfs` writes to block `0` decodes to the superblock in memory. -/
theorem decode_encode_fresh : decode fresh.encode = fresh := by
  unfold decode encode fresh
  simp only [Superblock.mk.injEq]
  -- each field is read through the stores behind it
  refine ⟨?_, ?_, ?_, ?_, ?_, ?_, ?_⟩ <;>
  · repeat rw [loadLe_storeLe_of_disjoint _ (by omega)]
    exact loadLe_storeLe _ _ _ (by decide)

end Superblock

/-- The globals: the disk behind `diskfile` and the in-memory superblock `sb`. -/
structure Fs where
  disk : Disk
  sb : Superblock

/-- `bio_write` -/
def Fs.bioWrite (s : Fs) (blk : ℕ) (b : Block) : Fs :=
  { s with disk := Function.update s.disk blk b }

/-! ### Bitmaps -/

/-- `get_bitmap` -/
def getBitmap (b : Block) (i : ℕ) : ℕ :=
  if (b (i / 8)).toNat &&& 1 <<< (i &&& 7) ≠ 0 then 1 else 0

/-- `set_bitmap` -/
def setBitmap (b : Block) (i : ℕ) : Block :=
  storeByte b (i / 8) (setMask (b (i / 8)) (i &&& 7))

theorem and_seven (i : ℕ) : i &&& 7 = i % 8 := Nat.and_two_pow_sub_one_eq_mod i 3

theorem getBitmap_eq (b : Block) (i : ℕ) : getBitmap b i = if bit b i then 1 else 0 := by
  have hbit : (b (i / 8)).toBitVec.getLsbD (i % 8) = (b (i / 8)).toNat.testBit (i % 8) := rfl
  rw [getBitmap, bit, hbit, and_seven, Nat.one_shiftLeft, Nat.and_two_pow]
  cases (b (i / 8)).toNat.testBit (i % 8) <;> simp

@[simp] theorem bit_setBitmap (b : Block) (i : ℕ) :
    bit (setBitmap b i) = Function.update (bit b) i true := by
  rw [setBitmap, and_seven]
  exact bit_setByte b i

/-- `get_avail_ino` -/
def getAvailIno (s : Fs) : Option ℕ × Fs × List Event :=
  let blk := s.sb.iBitmapBlk
  let b := s.disk blk
  match firstIdx (fun i => getBitmap b i == 0) 0 s.sb.maxInum with
  | some i => (some i, s.bioWrite blk (setBitmap b i), [.read blk, .write .getAvailIno blk])
  | none => (none, s, [.read blk])

/-- `get_avail_blkno` -/
def getAvailBlkno (s : Fs) : Option ℕ × Fs × List Event :=
  let blk := s.sb.dBitmapBlk
  let b := s.disk blk
  match firstIdx (fun i => getBitmap b i == 0) 0 s.sb.maxDnum with
  | some i => (some (s.sb.dStartBlk + i), s.bioWrite blk (setBitmap b i),
      [.read blk, .write .getAvailBlkno blk, .allocBlk b (some (s.sb.dStartBlk + i))])
  | none => (none, s, [.read blk, .allocBlk b none])

/-! ### Inodes -/

/-- `struct inode`, as its bytes. -/
abbrev Inode := Bytes

namespace Inode

def ino (n : Inode) : ℕ := loadLe n 0 2
def valid (n : Inode) : ℕ := loadLe n 2 2
def size (n : Inode) : ℕ := loadLe n 4 4
def directPtr (n : Inode) (i : ℕ) : ℕ := loadLe n (16 + 4 * i) 4
/-- `vstat.st_mode` -/
def stMode (n : Inode) : ℕ := loadLe n 136 4
/-- `vstat.st_size` -/
def stSize (n : Inode) : ℕ := loadLe n 160 8

def setIno (n : Inode) (v : ℕ) : Inode := storeLe n 0 2 v
def setValid (n : Inode) (v : ℕ) : Inode := storeLe n 2 2 v
def setSize (n : Inode) (v : ℕ) : Inode := storeLe n 4 4 v
def setType (n : Inode) (v : ℕ) : Inode := storeLe n 8 4 v
def setLink (n : Inode) (v : ℕ) : Inode := storeLe n 12 4 v
def setDirectPtr (n : Inode) (i v : ℕ) : Inode := storeLe n (16 + 4 * i) 4 v
/-- `vstat.st_nlink` -/
def setStNlink (n : Inode) (v : ℕ) : Inode := storeLe n 128 8 v
def setStMode (n : Inode) (v : ℕ) : Inode := storeLe n 136 4 v
/-- `vstat.st_uid` -/
def setStUid (n : Inode) (v : ℕ) : Inode := storeLe n 140 4 v
/-- `vstat.st_gid` -/
def setStGid (n : Inode) (v : ℕ) : Inode := storeLe n 144 4 v
def setStSize (n : Inode) (v : ℕ) : Inode := storeLe n 160 8 v
/-- `vstat.st_atime` -/
def setStAtime (n : Inode) (v : ℕ) : Inode := storeLe n 184 8 v
/-- `vstat.st_mtime` -/
def setStMtime (n : Inode) (v : ℕ) : Inode := storeLe n 200 8 v

/-- `S_ISDIR(inode.vstat.st_mode)` -/
def isDir (n : Inode) : Bool := n.stMode &&& sIfmt == sIfdir
/-- `S_ISREG(inode.vstat.st_mode)` -/
def isReg (n : Inode) : Bool := n.stMode &&& sIfmt == sIfreg

/-- The inode as it is stored: `sizeof(struct inode)` bytes. -/
def norm (n : Inode) : Inode := window n 0 inodeSize

/-- The fields that the layout of a file system hangs on are the same. -/
structure SameCore (n n' : Inode) : Prop where
  ino : n'.ino = n.ino
  valid : n'.valid = n.valid
  stMode : n'.stMode = n.stMode
  directPtr : ∀ k < numPtrs, n'.directPtr k = n.directPtr k

theorem SameCore.trans {n₁ n₂ n₃ : Inode} (h₁ : SameCore n₁ n₂) (h₂ : SameCore n₂ n₃) :
    SameCore n₁ n₃ where
  ino := h₂.ino.trans h₁.ino
  valid := h₂.valid.trans h₁.valid
  stMode := h₂.stMode.trans h₁.stMode
  directPtr k hk := (h₂.directPtr k hk).trans (h₁.directPtr k hk)

theorem SameCore.isDir {n n' : Inode} (h : SameCore n n') : n'.isDir = n.isDir := by
  rw [Inode.isDir, Inode.isDir, h.stMode]

theorem SameCore.isReg {n n' : Inode} (h : SameCore n n') : n'.isReg = n.isReg := by
  rw [Inode.isReg, Inode.isReg, h.stMode]

section Fields

variable (n : Inode) (k v : ℕ)

theorem sameCore_norm : SameCore n n.norm where
  ino := loadLe_window (a := 0) n (by decide)
  valid := loadLe_window (a := 0) n (by decide)
  stMode := loadLe_window (a := 0) n (by decide)
  directPtr k hk := by
    unfold numPtrs at hk
    unfold norm directPtr inodeSize
    rw [loadLe_window _ (by omega), Nat.zero_add]

@[simp] theorem size_norm : n.norm.size = n.size := loadLe_window (a := 0) n (by decide)
@[simp] theorem stSize_norm : n.norm.stSize = n.stSize := loadLe_window (a := 0) n (by decide)

end Fields

end Inode

/-- `readi`: the inode, unless the number is out of range or the inode is not valid. -/
def readi (s : Fs) (ino : ℕ) : Option Inode × List Event :=
  if ino ≥ s.sb.maxInum then (none, [])
  else
    let blockNum := s.sb.iStartBlk + ino / inodesPerBlock
    let offset := ino % inodesPerBlock * inodeSize
    let inode : Inode := window (s.disk blockNum) offset inodeSize
    (if inode.valid = 0 then none else some inode, [.read blockNum])

/-- `writei` -/
def writei (s : Fs) (ino : ℕ) (inode : Inode) : Fs × List Event :=
  if ino ≥ s.sb.maxInum then (s, [])
  else
    let blockNum := s.sb.iStartBlk + ino / inodesPerBlock
    let offset := ino % inodesPerBlock * inodeSize
    (s.bioWrite blockNum (memcpy (s.disk blockNum) offset inode inodeSize),
      [.read blockNum, .write .writei blockNum])

/-! ### Directory entries -/

/-- A file name, without its terminator. -/
abbrev Name := List UInt8

/-- `tab[j].ino` -/
def entIno (b : Block) (j : ℕ) : ℕ := loadLe b (j * direntSize) 2
/-- `tab[j].valid` -/
def entValid (b : Block) (j : ℕ) : ℕ := loadLe b (j * direntSize + 2) 2
/-- `tab[j].len` -/
def entLen (b : Block) (j : ℕ) : ℕ := loadLe b (j * direntSize + 212) 2
/-- `tab[j].name[k]` -/
def entByte (b : Block) (j k : ℕ) : UInt8 := b (j * direntSize + 4 + k)

/-- `!tab[j].valid` -/
def entFree (b : Block) (j : ℕ) : Bool := entValid b j == 0

/-- The entry is valid and has this name. `strncmp` compares `name_len` bytes, and a C string
of that length has no terminator among them, so it finds equality exactly when all agree. -/
def entMatches (fname : Name) (b : Block) (j : ℕ) : Bool :=
  entValid b j != 0 && entLen b j == fname.length % 2 ^ 16 &&
    (List.range fname.length).all fun k => entByte b j k == fname.getD k 0

/-- Fill entry `j`: the four assignments of `dir_add`. -/
def setEntry (b : Block) (j fIno : ℕ) (fname : Name) : Block :=
  memcpy (storeLe (storeLe (storeLe b (j * direntSize + 2) 2 1) (j * direntSize) 2 fIno)
    (j * direntSize + 212) 2 fname.length) (j * direntSize + 4) (fun k => fname.getD k 0)
    fname.length

section SetEntry

variable {b : Block} {j k fIno : ℕ} {fname c : Name}

theorem entMatches_iff (hc : c.length ≤ nameMax) :
    entMatches c b j = true ↔
      entValid b j ≠ 0 ∧ entLen b j = c.length ∧ ∀ k < c.length, entByte b j k = c.getD k 0 := by
  rw [entMatches, Nat.mod_eq_of_lt (by unfold nameMax at hc; omega)]
  simp [and_assoc]

/-- An entry that matches is in use. -/
theorem not_entFree_of_entMatches (h : entMatches c b j = true) : entFree b j = false := by
  simp only [entMatches, Bool.and_eq_true, bne_iff_ne] at h
  simpa [entFree] using h.1.1

/-- Filling an entry leaves the bytes of the others alone. -/
theorem agree_setEntry (hl : fname.length ≤ nameMax) {a n : ℕ}
    (h : a + n ≤ j * direntSize ∨ j * direntSize + direntSize ≤ a) :
    Agree b (setEntry b j fIno fname) a n := by
  unfold nameMax at hl
  unfold direntSize at h
  unfold setEntry direntSize
  refine .trans (agree_storeLe _ (by omega)) (.trans (agree_storeLe _ (by omega))
    (.trans (agree_storeLe _ (by omega)) (agree_memcpy _ (by omega))))

theorem entIno_setEntry_of_ne (hl : fname.length ≤ nameMax) (hk : k ≠ j) :
    entIno (setEntry b j fIno fname) k = entIno b k :=
  loadLe_congr (agree_setEntry hl (by unfold direntSize; omega))

theorem entValid_setEntry : entValid (setEntry b j fIno fname) j = 1 := by
  unfold entValid setEntry
  rw [loadLe_congr (agree_memcpy _ (by omega)), loadLe_storeLe_of_disjoint _ (by omega),
    loadLe_storeLe_of_disjoint _ (by omega)]
  exact loadLe_storeLe _ _ _ (by decide)

theorem entIno_setEntry (hf : fIno < 2 ^ 16) : entIno (setEntry b j fIno fname) j = fIno := by
  unfold entIno setEntry
  rw [loadLe_congr (agree_memcpy _ (by omega)), loadLe_storeLe_of_disjoint _ (by omega)]
  exact loadLe_storeLe _ _ _ hf

/-- The filled entry matches its own name and no other. -/
theorem entMatches_setEntry (hl : fname.length ≤ nameMax) (hc : c.length ≤ nameMax) :
    entMatches c (setEntry b j fIno fname) j = true ↔ c = fname := by
  have hlen : entLen (setEntry b j fIno fname) j = fname.length := by
    unfold nameMax at hl
    unfold entLen setEntry
    rw [loadLe_congr (agree_memcpy _ (by omega))]
    exact loadLe_storeLe _ _ _ (by omega)
  have hbyte : ∀ k < fname.length, entByte (setEntry b j fIno fname) j k = fname.getD k 0 := by
    intro k hk
    unfold entByte setEntry
    rw [memcpy_apply _ (by omega) (by omega), Nat.add_sub_cancel_left]
  rw [entMatches_iff hc, hlen, entValid_setEntry]
  constructor
  · rintro ⟨-, hlen, hbytes⟩
    refine List.ext_getElem hlen.symm fun k hk hk' => ?_
    have h := hbytes k hk
    rw [hbyte k hk', List.getD_eq_getElem _ _ hk, List.getD_eq_getElem _ _ hk'] at h
    exact h.symm
  · rintro rfl
    exact ⟨by decide, rfl, hbyte⟩

end SetEntry

end Rufs
