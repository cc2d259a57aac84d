import Cs416.Lib.Lts
import Cs416.Rufs.Path

/-!
# The operations of RUFS

The functions of `rufs.c` on the globals `Fs`. A function that only reads the disk returns
its value and the events it caused; one that writes also returns the new globals. A loop over
the direct pointers recurses on the number of pointers left, from index `i` on.

`time(NULL)`, `getuid()` and `getgid()` come from the environment of the call. Offsets are
`off_t` values, which FUSE keeps non-negative. `apply` is one call of a FUSE operation; it has
no result where the C code leaves defined behaviour (a negative array index in `rufs_write`,
which needs an offset of at least `2 ^ 43`).
-/

open ByteMem Scan

namespace Rufs

/-- What `time`, `getuid` and `getgid` answer during a call. `addTime` is the time `dir_add`
sees. -/
structure Env where
  addTime : ℕ
  now : ℕ
  uid : ℕ
  gid : ℕ

/-- A zeroed block. -/
def zeroBlock : Block := fun _ => 0

/-! ### Directory operations -/

/-- The loop of `dir_find` and the first one of `dir_add`, over the entries in the blocks of
`dir`: the block and the index of the first entry with property `p`. -/
def scanEntries (s : Fs) (dir : Inode) (p : Block → ℕ → Bool) :
    (n i : ℕ) → Option (ℕ × ℕ) × List Event
  | 0, _ => (none, [])
  | n + 1, i =>
    let blk := dir.directPtr i
    if blk = 0 then scanEntries s dir p n (i + 1)
    else
      match firstIdx (p (s.disk blk)) 0 entsPerBlk with
      | some j => (some (blk, j), [.read blk])
      | none =>
        let r := scanEntries s dir p n (i + 1)
        (r.1, .read blk :: r.2)

/-- `dir_find`. Of the entry found its `ino` is kept, the only field the callers use. -/
def dirFind (s : Fs) (ino : ℕ) (fname : Name) : Option ℕ × List Event :=
  if fname.length > nameMax then (none, [])
  else
    match readi s ino with
    | (none, e) => (none, e)
    | (some dirInode, e) =>
      let r := scanEntries s dirInode (entMatches fname) numPtrs 0
      (r.1.map fun found => entIno (s.disk found.1) found.2, e ++ r.2)

/-- The directory inode `dir_add` writes back. -/
def dirTouch (dir : Inode) (now : ℕ) : Inode :=
  (dir.setSize (dir.size + direntSize)).setStMtime now

/-- The part of `dir_add` that runs when every allocated block of the directory is full. -/
def dirGrow (s : Fs) (dir : Inode) (fIno : ℕ) (fname : Name) (now : ℕ) :
    Bool × Fs × List Event :=
  match getAvailBlkno s with
  | (none, s, e) => (false, s, e)
  | (some newBlk, s, e) =>
    match firstIdx (fun i => dir.directPtr i == 0) 0 numPtrs with
    | none => (false, s, e)
    | some i =>
      let dir := dir.setDirectPtr i newBlk
      let s := s.bioWrite newBlk (setEntry zeroBlock 0 fIno fname)
      let w := writei s dir.ino (dirTouch dir now)
      (true, w.1, e ++ .write .data newBlk :: w.2)

/-- `dir_add`; `false` stands for a negative return value. -/
def dirAdd (s : Fs) (dir : Inode) (fIno : ℕ) (fname : Name) (now : ℕ) :
    Bool × Fs × List Event :=
  if fname.length > nameMax then (false, s, [])
  else
    match dirFind s dir.ino fname with
    | (some _, e) => (false, s, e)
    | (none, e) =>
      match scanEntries s dir entFree numPtrs 0 with
      | (some (blk, j), e₁) =>
        let s := s.bioWrite blk (setEntry (s.disk blk) j fIno fname)
        let w := writei s dir.ino (dirTouch dir now)
        (true, w.1, e ++ e₁ ++ .write .data blk :: w.2)
      | (none, e₁) =>
        let r := dirGrow s dir fIno fname now
        (r.1, r.2.1, e ++ e₁ ++ r.2.2)

/-! ### Path lookup -/

/-- The token loop of `get_node_by_path`, at inode `cur`. -/
def walk (s : Fs) : (cur : Inode) → List Name → Option Inode × List Event
  | cur, [] => (some cur, [])
  | cur, token :: rest =>
    if cur.isDir = false then (none, [])
    else
      match dirFind s cur.ino token with
      | (none, e) => (none, e)
      | (some ino, e) =>
        match readi s ino with
        | (none, e₁) => (none, e ++ e₁)
        | (some cur, e₁) =>
          let r := walk s cur rest
          (r.1, e ++ e₁ ++ r.2)

/-- `get_node_by_path` -/
def getNodeByPath (s : Fs) (path : List UInt8) (ino : ℕ) : Option Inode × List Event :=
  match readi s ino with
  | (none, e) => (none, e)
  | (some cur, e) =>
    if path = [slash] then (some cur, e)
    else
      let r := walk s cur (tokens (path.take (pathMax - 1)))
      (r.1, e ++ r.2)

/-! ### Making and mounting a file system -/

namespace Inode

/-- The fields of a new inode outside `vstat`; the rest of it is zeroed. -/
def fresh (ino type link : ℕ) : Inode :=
  ((((setIno zeroBlock ino).setValid 1).setType type).setSize 0).setLink link

/-- The fields of `vstat` that a new inode gets. -/
def fillStat (n : Inode) (mode nlink : ℕ) (env : Env) : Inode :=
  (((((n.setStMode mode).setStUid env.uid).setStGid env.gid).setStNlink nlink).setStAtime
    env.now).setStMtime env.now

end Inode

/-- The root inode of `rufs_mkfs`. -/
def rootInode (env : Env) : Inode :=
  ((Inode.fresh 0 sIfdir 2).setDirectPtr 0 Superblock.fresh.dStartBlk).fillStat
    (sIfdir ||| 0o755) 2 env

/-- `rufs_mkfs`, on the empty file that `dev_init` creates. -/
def rufsMkfs (env : Env) : Fs × List Event :=
  let sb := Superblock.fresh
  let s : Fs := { disk := fun _ => zeroBlock, sb := sb }
  let s := s.bioWrite 0 sb.encode
  let s := s.bioWrite sb.iBitmapBlk (setBitmap zeroBlock 0)
  let s := s.bioWrite sb.dBitmapBlk (setBitmap zeroBlock 0)
  let s := s.bioWrite sb.dStartBlk zeroBlock
  let w := writei s 0 (rootInode env)
  (w.1, [.write .mkfs 0, .write .mkfs sb.iBitmapBlk, .write .mkfs sb.dBitmapBlk,
    .write .mkfs sb.dStartBlk] ++ w.2)

/-- `rufs_init`, when the disk file is found. -/
def rufsInit (disk : Disk) : Fs × List Event :=
  ({ disk := disk, sb := Superblock.decode (disk 0) }, [.read 0])

/-- `count_used_dblocks` -/
def countUsedDblocks (s : Fs) : ℕ :=
  (List.range s.sb.maxDnum).countP fun i => getBitmap (s.disk s.sb.dBitmapBlk) i != 0

/-- `count_used_inodes` -/
def countUsedInodes (s : Fs) : ℕ :=
  (List.range s.sb.maxInum).countP fun i => getBitmap (s.disk s.sb.iBitmapBlk) i != 0

/-- `rufs_destroy`: the two counts it prints. Nothing but the disk survives it. -/
def rufsDestroy (s : Fs) : (ℕ × ℕ) × Disk × List Event :=
  ((countUsedDblocks s, countUsedInodes s), s.disk,
    [.read s.sb.dBitmapBlk, .read s.sb.iBitmapBlk])

/-! ### Files and directories -/

abbrev eNoent : ℤ := 2
abbrev eIo : ℤ := 5
abbrev eNotdir : ℤ := 20
abbrev eIsdir : ℤ := 21
abbrev eNospc : ℤ := 28

/-- The part that `rufs_mkdir` and `rufs_create` share: find the parent directory, take an
inode number and enter the name. The three codes are the caller's: for a parent that is not a
directory, for no free inode, and for a failed `dir_add`. -/
def newEntry (notDir noIno noEntry : ℤ) (s : Fs) (path : List UInt8) (env : Env) :
    Except ℤ ℕ × Fs × List Event :=
  match getNodeByPath s (dirname path) 0 with
  | (none, e) => (.error (-eNoent), s, e)
  | (some parent, e) =>
    if parent.isDir = false then (.error notDir, s, e)
    else
      match getAvailIno s with
      | (none, s, e₁) => (.error noIno, s, e ++ e₁)
      | (some newIno, s, e₁) =>
        match dirAdd s parent newIno (basename path) env.addTime with
        | (false, s, e₂) => (.error noEntry, s, e ++ e₁ ++ e₂)
        | (true, s, e₂) => (.ok newIno, s, e ++ e₁ ++ e₂)

/-- The inode `rufs_mkdir` writes. -/
def dirInode (newIno blk mode : ℕ) (env : Env) : Inode :=
  ((Inode.fresh newIno sIfdir 2).setDirectPtr 0 blk).fillStat (sIfdir ||| mode) 2 env

/-- The inode `rufs_create` writes. -/
def fileInode (newIno mode : ℕ) (env : Env) : Inode :=
  (Inode.fresh newIno sIfreg 1).fillStat (sIfreg ||| mode) 1 env

/-- `rufs_mkdir` -/
def rufsMkdir (s : Fs) (path : List UInt8) (mode : ℕ) (env : Env) : ℤ × Fs × List Event :=
  match newEntry (-1) (-1) (-1) s path env with
  | (.error r, s, e) => (r, s, e)
  | (.ok newIno, s, e) =>
    match getAvailBlkno s with
    | (none, s, e₁) => (-eNospc, s, e ++ e₁)
    | (some blk, s, e₁) =>
      let w := writei s newIno (dirInode newIno blk mode env)
      (0, w.1, e ++ e₁ ++ w.2)

/-- `rufs_create` -/
def rufsCreate (s : Fs) (path : List UInt8) (mode : ℕ) (env : Env) : ℤ × Fs × List Event :=
  match newEntry (-eNotdir) (-eNospc) (-eIo) s path env with
  | (.error r, s, e) => (r, s, e)
  | (.ok newIno, s, e) =>
    let w := writei s newIno (fileInode newIno mode env)
    (0, w.1, e ++ w.2)

/-- `rufs_getattr`: the code, and `*stbuf` when it is `0`. -/
def rufsGetattr (s : Fs) (path : List UInt8) : (ℤ × Option Bytes) × List Event :=
  match getNodeByPath s path 0 with
  | (none, e) => ((-eNoent, none), e)
  | (some inode, e) => ((0, some (window inode 112 144)), e)

/-- `rufs_opendir` -/
def rufsOpendir (s : Fs) (path : List UInt8) : ℤ × List Event :=
  match getNodeByPath s path 0 with
  | (none, e) => (-eNoent, e)
  | (some inode, e) => (if inode.isDir = false then -1 else 0, e)

/-- `rufs_open` -/
def rufsOpen (s : Fs) (path : List UInt8) : ℤ × List Event :=
  match getNodeByPath s path 0 with
  | (none, e) => (-eNoent, e)
  | (some inode, e) => (if inode.isReg = false then -eIsdir else 0, e)

/-- The name of entry `j`. -/
def entName (tab : Block) (j : ℕ) : Name := (List.range (entLen tab j)).map (entByte tab j)

/-- The names of the valid entries of a block. -/
def blockNames (tab : Block) : List Name :=
  ((List.range entsPerBlk).filter fun j => entValid tab j != 0).map (entName tab)

/-- The loop of `rufs_readdir` over the blocks of the directory. -/
def readdirFrom (s : Fs) (dir : Inode) : (n i : ℕ) → List Name × List Event
  | 0, _ => ([], [])
  | n + 1, i =>
    let blk := dir.directPtr i
    let r := readdirFrom s dir n (i + 1)
    if blk = 0 then r else (blockNames (s.disk blk) ++ r.1, .read blk :: r.2)

/-- `rufs_readdir`: the names passed to `filler`. -/
def rufsReaddir (s : Fs) (path : List UInt8) : (ℤ × List Name) × List Event :=
  match getNodeByPath s path 0 with
  | (none, e) => ((-eNoent, []), e)
  | (some dir, e) =>
    if dir.isDir = false then ((-1, []), e)
    else
      let r := readdirFrom s dir numPtrs 0
      ((0, [46] :: [46, 46] :: r.1), e ++ r.2)

/-- `BLOCK_SIZE - blk_offset`, or what is left if that is less. -/
def toCopy (blkOffset left : ℕ) : ℕ := min (blockSize - blkOffset) left

/-- The loop of `rufs_read`: `bytesRead` bytes of `buffer` are filled. -/
def readLoop (s : Fs) (file : Inode) (size : ℕ) :
    (n i blkOffset bytesRead : ℕ) → Bytes → (ℕ × Bytes) × List Event
  | 0, _, _, bytesRead, buffer => ((bytesRead, buffer), [])
  | n + 1, i, blkOffset, bytesRead, buffer =>
    if bytesRead < size then
      let blkno := file.directPtr i
      if blkno = 0 then ((bytesRead, buffer), [])
      else
        let len := toCopy blkOffset (size - bytesRead)
        let buffer := memcpy buffer bytesRead (fun k => s.disk blkno (blkOffset + k)) len
        let r := readLoop s file size n (i + 1) 0 (bytesRead + len) buffer
        (r.1, .read blkno :: r.2)
    else ((bytesRead, buffer), [])

/-- `rufs_read`: the return value and the buffer as the call leaves it. -/
def rufsRead (s : Fs) (path : List UInt8) (buffer : Bytes) (size offset : ℕ) :
    (ℤ × Bytes) × List Event :=
  match getNodeByPath s path 0 with
  | (none, e) => ((-eNoent, buffer), e)
  | (some file, e) =>
    if file.isReg = false then ((-eIsdir, buffer), e)
    else if offset ≥ file.size then ((0, buffer), e)
    else
      let size := if (offset + size) % 2 ^ 64 > file.size then file.size - offset else size
      let startBlk := offset / blockSize
      let r := readLoop s file size (numPtrs - startBlk) startBlk (offset % blockSize) 0 buffer
      ((r.1.1, r.1.2), e ++ r.2)

/-- Allocate block `i` of a file if it is missing: the in-memory inode, or `none` when there
is no block left. -/
def ensureBlk (s : Fs) (file : Inode) (i : ℕ) : Option Inode × Fs × List Event :=
  if file.directPtr i = 0 then
    match getAvailBlkno s with
    | (none, s, e) => (none, s, e)
    | (some blk, s, e) => (some (file.setDirectPtr i blk), s, e)
  else (some file, s, [])

/-- The loop of `rufs_write`, with `bytesWritten` bytes of `buffer` on disk: the in-memory
inode and the bytes written, or `none` when a block could not be allocated. -/
def writeLoop (buffer : Bytes) (size : ℕ) : (n i : ℕ) → (s : Fs) → (file : Inode) →
    (blkOffset bytesWritten : ℕ) → Option (Inode × ℕ) × Fs × List Event
  | 0, _, s, file, _, bytesWritten => (some (file, bytesWritten), s, [])
  | n + 1, i, s, file, blkOffset, bytesWritten =>
    if bytesWritten < size then
      match ensureBlk s file i with
      | (none, s, e) => (none, s, e)
      | (some file, s, e) =>
        let blk := file.directPtr i
        let len := toCopy blkOffset (size - bytesWritten)
        let s := s.bioWrite blk
          (memcpy (s.disk blk) blkOffset (fun k => buffer (bytesWritten + k)) len)
        let r := writeLoop buffer size n (i + 1) s file 0 (bytesWritten + len)
        (r.1, r.2.1, e ++ .read blk :: .write .data blk :: r.2.2)
    else (some (file, bytesWritten), s, [])

/-- The inode `rufs_write` writes back, with the data ending at `endPos`. -/
def writeTouch (file : Inode) (endPos now : ℕ) : Inode :=
  let file := if endPos > file.size then
      let file := file.setSize endPos
      file.setStSize file.size
    else file
  file.setStMtime now

/-- `rufs_write`. `start_blk` is an `int`; a negative one with something to write would index
`direct_ptr` out of bounds. -/
def rufsWrite (s : Fs) (path : List UInt8) (buffer : Bytes) (size offset : ℕ) (env : Env) :
    Option (ℤ × Fs × List Event) :=
  match getNodeByPath s path 0 with
  | (none, e) => some (-eNoent, s, e)
  | (some file, e) =>
    if file.isReg = false then some (-eIsdir, s, e)
    else
      let startBlk := offset / blockSize % 2 ^ 32
      if startBlk ≥ 2 ^ 31 ∧ 0 < size then none
      else
        match writeLoop buffer size (numPtrs - startBlk) startBlk s file (offset % blockSize) 0
        with
        | (none, s, e₁) => some (-eNospc, s, e ++ e₁)
        | (some (file, bytesWritten), s, e₁) =>
          let w := writei s file.ino (writeTouch file (offset + bytesWritten) env.now)
          some (bytesWritten, w.1, e ++ e₁ ++ w.2)

/-! ### The file system as a transition system -/

/-- A call of a FUSE operation. -/
inductive Op
  | getattr (path : CPath)
  | opendir (path : CPath)
  | readdir (path : CPath)
  | mkdir (path : CPath) (mode : UInt32) (env : Env)
  | create (path : CPath) (mode : UInt32) (env : Env)
  | open (path : CPath)
  | read (path : CPath) (buffer : Bytes) (size offset : UInt64)
  | write (path : CPath) (buffer : Bytes) (size offset : UInt64) (env : Env)

/-- What a call returns, with what it stored through the pointers it was passed. -/
inductive Result
  | code (r : ℤ)
  | attr (r : ℤ) (stbuf : Option Bytes)
  | names (r : ℤ) (names : List Name)
  | buffer (r : ℤ) (buffer : Bytes)

/-- One call. -/
def apply (s : Fs) : Op → Option (Result × Fs × List Event)
  | .getattr path =>
    let r := rufsGetattr s path.bytes
    some (.attr r.1.1 r.1.2, s, r.2)
  | .opendir path =>
    let r := rufsOpendir s path.bytes
    some (.code r.1, s, r.2)
  | .readdir path =>
    let r := rufsReaddir s path.bytes
    some (.names r.1.1 r.1.2, s, r.2)
  | .mkdir path mode env =>
    let r := rufsMkdir s path.bytes mode.toNat env
    some (.code r.1, r.2)
  | .create path mode env =>
    let r := rufsCreate s path.bytes mode.toNat env
    some (.code r.1, r.2)
  | .open path =>
    let r := rufsOpen s path.bytes
    some (.code r.1, s, r.2)
  | .read path buffer size offset =>
    let r := rufsRead s path.bytes buffer size.toNat offset.toNat
    some (.buffer r.1.1 r.1.2, s, r.2)
  | .write path buffer size offset env =>
    (rufsWrite s path.bytes buffer size.toNat offset.toNat env).map
      fun r => (.code r.1, r.2)

/-- A call as a label: the operation, its result and the block accesses it made. -/
structure Call where
  op : Op
  result : Result
  events : List Event

/-- A file system made by `rufs_mkfs`, and any sequence of calls on it. -/
def system : Lts.System Fs Call where
  init s := ∃ env, s = (rufsMkfs env).1
  step s c s' := apply s c.op = some (c.result, s', c.events)

end Rufs
