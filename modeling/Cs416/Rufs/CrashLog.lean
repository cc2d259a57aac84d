import Cs416.Lib.WriteLog
import Cs416.Rufs.Model

/-!
# The block writes of a call

`opLog s op` lists the `bio_write` calls of one FUSE operation, in order and with the data: what
reaches the disk file when the process is killed in the middle of the call is a first part of it.
Each function that writes has its log here, with the control flow of the function itself.

`Logs ws s s' e` says that a log is the right one: the state `s'` that the function leaves is the
log performed on `s`, and the writes among the events `e` are those of the log, in order
(`logs_apply`).
-/

open ByteMem Scan WriteLog

namespace Rufs

/-- Block numbers and what is written to them, oldest first. -/
abbrev Log := List (ℕ × Block)

/-- The globals after the writes of the log. -/
def Fs.replay (s : Fs) (ws : Log) : Fs := { s with disk := play s.disk ws }

@[simp] theorem Fs.replay_nil (s : Fs) : s.replay [] = s := rfl

theorem Fs.replay_cons (s : Fs) (b : ℕ) (blk : Block) (ws : Log) :
    s.replay ((b, blk) :: ws) = (s.bioWrite b blk).replay ws := rfl

theorem Fs.replay_append (s : Fs) (ws₁ ws₂ : Log) :
    s.replay (ws₁ ++ ws₂) = (s.replay ws₁).replay ws₂ := by
  rw [replay, play_append]
  rfl

/-! ### The logs -/

/-- `get_avail_ino` -/
def getAvailInoLog (s : Fs) : Log :=
  let blk := s.sb.iBitmapBlk
  let b := s.disk blk
  match firstIdx (fun i => getBitmap b i == 0) 0 s.sb.maxInum with
  | some i => [(blk, setBitmap b i)]
  | none => []

/-- `get_avail_blkno` -/
def getAvailBlknoLog (s : Fs) : Log :=
  let blk := s.sb.dBitmapBlk
  let b := s.disk blk
  match firstIdx (fun i => getBitmap b i == 0) 0 s.sb.maxDnum with
  | some i => [(blk, setBitmap b i)]
  | none => []

/-- `writei` -/
def writeiLog (s : Fs) (ino : ℕ) (inode : Inode) : Log :=
  if ino ≥ s.sb.maxInum then []
  else
    let blockNum := s.sb.iStartBlk + ino / inodesPerBlock
    let offset := ino % inodesPerBlock * inodeSize
    [(blockNum, memcpy (s.disk blockNum) offset inode inodeSize)]

/-- `dir_add` where every block is full. -/
def dirGrowLog (s : Fs) (dir : Inode) (fIno : ℕ) (fname : Name) (now : ℕ) : Log :=
  getAvailBlknoLog s ++
    match getAvailBlkno s with
    | (none, _, _) => []
    | (some newBlk, s, _) =>
      match firstIdx (fun i => dir.directPtr i == 0) 0 numPtrs with
      | none => []
      | some i =>
        let dir := dir.setDirectPtr i newBlk
        let entry := setEntry zeroBlock 0 fIno fname
        (newBlk, entry) :: writeiLog (s.bioWrite newBlk entry) dir.ino (dirTouch dir now)

/-- `dir_add` -/
def dirAddLog (s : Fs) (dir : Inode) (fIno : ℕ) (fname : Name) (now : ℕ) : Log :=
  if fname.length > nameMax then []
  else
    match dirFind s dir.ino fname with
    | (some _, _) => []
    | (none, _) =>
      match scanEntries s dir entFree numPtrs 0 with
      | (some (blk, j), _) =>
        let entry := setEntry (s.disk blk) j fIno fname
        (blk, entry) :: writeiLog (s.bioWrite blk entry) dir.ino (dirTouch dir now)
      | (none, _) => dirGrowLog s dir fIno fname now

/-- The part that `rufs_mkdir` and `rufs_create` share. -/
def newEntryLog (s : Fs) (path : List UInt8) (env : Env) : Log :=
  match getNodeByPath s (dirname path) 0 with
  | (none, _) => []
  | (some parent, _) =>
    if parent.isDir = false then []
    else
      getAvailInoLog s ++
        match getAvailIno s with
        | (none, _, _) => []
        | (some newIno, s, _) => dirAddLog s parent newIno (basename path) env.addTime

/-- `rufs_mkdir` -/
def rufsMkdirLog (s : Fs) (path : List UInt8) (mode : ℕ) (env : Env) : Log :=
  newEntryLog s path env ++
    match newEntry (-1) (-1) (-1) s path env with
    | (.error _, _, _) => []
    | (.ok newIno, s, _) =>
      getAvailBlknoLog s ++
        match getAvailBlkno s with
        | (none, _, _) => []
        | (some blk, s, _) => writeiLog s newIno (dirInode newIno blk mode env)

/-- `rufs_create` -/
def rufsCreateLog (s : Fs) (path : List UInt8) (mode : ℕ) (env : Env) : Log :=
  newEntryLog s path env ++
    match newEntry (-eNotdir) (-eNospc) (-eIo) s path env with
    | (.error _, _, _) => []
    | (.ok newIno, s, _) => writeiLog s newIno (fileInode newIno mode env)

/-- The allocation in the loop of `rufs_write`. -/
def ensureBlkLog (s : Fs) (file : Inode) (i : ℕ) : Log :=
  if file.directPtr i = 0 then getAvailBlknoLog s else []

/-- The loop of `rufs_write`. -/
def writeLoopLog (buffer : Bytes) (size : ℕ) : (n i : ℕ) → (s : Fs) → (file : Inode) →
    (blkOffset bytesWritten : ℕ) → Log
  | 0, _, _, _, _, _ => []
  | n + 1, i, s, file, blkOffset, bytesWritten =>
    if bytesWritten < size then
      ensureBlkLog s file i ++
        match ensureBlk s file i with
        | (none, _, _) => []
        | (some file, s, _) =>
          let blk := file.directPtr i
          let len := toCopy blkOffset (size - bytesWritten)
          let copied := memcpy (s.disk blk) blkOffset (fun k => buffer (bytesWritten + k)) len
          (blk, copied) ::
            writeLoopLog buffer size n (i + 1) (s.bioWrite blk copied) file 0 (bytesWritten + len)
    else []

/-- `rufs_write` -/
def rufsWriteLog (s : Fs) (path : List UInt8) (buffer : Bytes) (size offset : ℕ) (env : Env) :
    Log :=
  match getNodeByPath s path 0 with
  | (none, _) => []
  | (some file, _) =>
    if file.isReg = false then []
    else
      let startBlk := offset / blockSize % 2 ^ 32
      if startBlk ≥ 2 ^ 31 ∧ 0 < size then []
      else
        writeLoopLog buffer size (numPtrs - startBlk) startBlk s file (offset % blockSize) 0 ++
          match writeLoop buffer size (numPtrs - startBlk) startBlk s file (offset % blockSize) 0
          with
          | (none, _, _) => []
          | (some (file, bytesWritten), s, _) =>
            writeiLog s file.ino (writeTouch file (offset + bytesWritten) env.now)

/-- The writes of a call. -/
def opLog (s : Fs) : Op → Log
  | .mkdir path mode env => rufsMkdirLog s path.bytes mode.toNat env
  | .create path mode env => rufsCreateLog s path.bytes mode.toNat env
  | .write path buffer size offset env =>
    rufsWriteLog s path.bytes buffer size.toNat offset.toNat env
  | _ => []

/-! ### They are the writes of the model -/

/-- The blocks written, in order. -/
def written (es : List Event) : List ℕ :=
  es.filterMap fun
    | .write _ b => some b
    | _ => none

@[simp] theorem written_nil : written [] = [] := rfl
@[simp] theorem written_read (b : ℕ) (es : List Event) : written (.read b :: es) = written es := rfl
@[simp] theorem written_write (w : Writer) (b : ℕ) (es : List Event) :
    written (.write w b :: es) = b :: written es := rfl
@[simp] theorem written_allocBlk (bm : Block) (r : Option ℕ) (es : List Event) :
    written (.allocBlk bm r :: es) = written es := rfl
@[simp] theorem written_append (es es' : List Event) :
    written (es ++ es') = written es ++ written es' := List.filterMap_append

/-- The function takes `s` to `s'` with the writes `ws`, which its events name. -/
structure Logs (ws : Log) (s s' : Fs) (e : List Event) : Prop where
  state : s.replay ws = s'
  blocks : ws.map Prod.fst = written e

section Logs

variable {ws ws₁ ws₂ : Log} {s s₁ s' : Fs} {e e₁ e₂ : List Event}

/-- A function that only reads. -/
theorem Logs.reads (h : written e = []) : Logs [] s s e := ⟨rfl, h.symm⟩

theorem Logs.append (h₁ : Logs ws₁ s s₁ e₁) (h₂ : Logs ws₂ s₁ s' e₂) :
    Logs (ws₁ ++ ws₂) s s' (e₁ ++ e₂) where
  state := by rw [Fs.replay_append, h₁.state, h₂.state]
  blocks := by rw [List.map_append, h₁.blocks, h₂.blocks, written_append]

/-- Reads in front of a function. -/
theorem Logs.after_reads (h : Logs ws s s' e) (he : written e₁ = []) : Logs ws s s' (e₁ ++ e) where
  state := h.state
  blocks := by rw [h.blocks, written_append, he, List.nil_append]

theorem Logs.write {b : ℕ} {blk : Block} {w : Writer} (h : Logs ws (s.bioWrite b blk) s' e) :
    Logs ((b, blk) :: ws) s s' (.write w b :: e) where
  state := h.state
  blocks := by rw [List.map_cons, h.blocks, written_write]

theorem written_readi (s : Fs) (ino : ℕ) : written (readi s ino).2 = [] := by
  unfold readi
  split <;> rfl

theorem written_scanEntries (s : Fs) (dir : Inode) (p : Block → ℕ → Bool) (n i : ℕ) :
    written (scanEntries s dir p n i).2 = [] := by
  induction n generalizing i with
  | zero => rfl
  | succ n ih =>
    rw [scanEntries]
    split
    · exact ih (i + 1)
    split
    · rfl
    · exact ih (i + 1)

theorem written_dirFind (s : Fs) (ino : ℕ) (fname : Name) : written (dirFind s ino fname).2 = [] := by
  have hread := written_readi s ino
  unfold dirFind
  split
  · rfl
  generalize readi s ino = res at hread ⊢
  rcases res with ⟨_ | dirInode, e⟩
  · exact hread
  · dsimp only at hread ⊢
    rw [written_append, hread, List.nil_append]
    exact written_scanEntries s dirInode (entMatches fname) numPtrs 0

theorem written_walk (s : Fs) (cur : Inode) (p : List Name) : written (walk s cur p).2 = [] := by
  induction p generalizing cur with
  | nil => rfl
  | cons token rest ih =>
    have hfind := written_dirFind s cur.ino token
    rw [walk]
    split
    · rfl
    generalize dirFind s cur.ino token = res at hfind ⊢
    rcases res with ⟨_ | ino, e⟩
    · exact hfind
    have hread := written_readi s ino
    dsimp only at hfind ⊢
    generalize readi s ino = res at hread ⊢
    rcases res with ⟨_ | next, e₁⟩
    · dsimp only at hread ⊢
      rw [written_append, hfind, hread, List.nil_append]
    · dsimp only at hread ⊢
      rw [written_append, written_append, hfind, hread, ih, List.nil_append, List.nil_append]

theorem written_getNodeByPath (s : Fs) (path : List UInt8) (ino : ℕ) :
    written (getNodeByPath s path ino).2 = [] := by
  have hread := written_readi s ino
  unfold getNodeByPath
  generalize readi s ino = res at hread ⊢
  rcases res with ⟨_ | cur, e⟩
  · exact hread
  dsimp only at hread ⊢
  split
  · exact hread
  · rw [written_append, hread, written_walk, List.nil_append]

theorem written_readdirFrom (s : Fs) (dir : Inode) (n i : ℕ) :
    written (readdirFrom s dir n i).2 = [] := by
  induction n generalizing i with
  | zero => rfl
  | succ n ih =>
    rw [readdirFrom]
    split
    · exact ih (i + 1)
    · exact ih (i + 1)

theorem written_readLoop (s : Fs) (file : Inode) (size n i blkOffset bytesRead : ℕ)
    (buffer : Bytes) : written (readLoop s file size n i blkOffset bytesRead buffer).2 = [] := by
  induction n generalizing i blkOffset bytesRead buffer with
  | zero => rfl
  | succ n ih =>
    rw [readLoop]
    dsimp only
    split
    · split
      · rfl
      · exact ih _ _ _ _
    · rfl

theorem logs_getAvailIno (s : Fs) :
    Logs (getAvailInoLog s) s (getAvailIno s).2.1 (getAvailIno s).2.2 := by
  unfold getAvailInoLog getAvailIno
  dsimp only
  cases firstIdx (fun i => getBitmap (s.disk s.sb.iBitmapBlk) i == 0) 0 s.sb.maxInum with
  | some i => exact ⟨rfl, rfl⟩
  | none => exact ⟨rfl, rfl⟩

theorem logs_getAvailBlkno (s : Fs) :
    Logs (getAvailBlknoLog s) s (getAvailBlkno s).2.1 (getAvailBlkno s).2.2 := by
  unfold getAvailBlknoLog getAvailBlkno
  dsimp only
  cases firstIdx (fun i => getBitmap (s.disk s.sb.dBitmapBlk) i == 0) 0 s.sb.maxDnum with
  | some i => exact ⟨rfl, rfl⟩
  | none => exact ⟨rfl, rfl⟩

theorem logs_writei (s : Fs) (ino : ℕ) (inode : Inode) :
    Logs (writeiLog s ino inode) s (writei s ino inode).1 (writei s ino inode).2 := by
  unfold writeiLog writei
  by_cases hino : ino ≥ s.sb.maxInum
  · rw [if_pos hino, if_pos hino]
    exact .reads rfl
  · rw [if_neg hino, if_neg hino]
    exact ⟨rfl, rfl⟩

theorem logs_dirGrow (s : Fs) (dir : Inode) (fIno : ℕ) (fname : Name) (now : ℕ) :
    Logs (dirGrowLog s dir fIno fname now) s (dirGrow s dir fIno fname now).2.1
      (dirGrow s dir fIno fname now).2.2 := by
  have hblk := logs_getAvailBlkno s
  unfold dirGrowLog dirGrow
  generalize getAvailBlkno s = res at hblk ⊢
  rcases res with ⟨_ | newBlk, s₁, e⟩
  · dsimp only at hblk ⊢
    rw [List.append_nil]
    exact hblk
  · dsimp only at hblk ⊢
    cases firstIdx (fun i => dir.directPtr i == 0) 0 numPtrs with
    | none =>
      dsimp only
      rw [List.append_nil]
      exact hblk
    | some i => exact hblk.append (logs_writei _ _ _).write

theorem logs_dirAdd (s : Fs) (dir : Inode) (fIno : ℕ) (fname : Name) (now : ℕ) :
    Logs (dirAddLog s dir fIno fname now) s (dirAdd s dir fIno fname now).2.1
      (dirAdd s dir fIno fname now).2.2 := by
  have hfind := written_dirFind s dir.ino fname
  have hscan := written_scanEntries s dir entFree numPtrs 0
  unfold dirAddLog dirAdd
  split
  · exact .reads rfl
  generalize dirFind s dir.ino fname = res at hfind ⊢
  rcases res with ⟨_ | found, e⟩
  · dsimp only at hfind ⊢
    generalize scanEntries s dir entFree numPtrs 0 = res at hscan ⊢
    rcases res with ⟨_ | ⟨blk, j⟩, e₁⟩
    all_goals
      dsimp only at hscan ⊢
      refine Logs.after_reads ?_ (by rw [written_append, hfind, hscan, List.append_nil])
    · exact logs_dirGrow s dir fIno fname now
    · exact (logs_writei _ _ _).write
  · exact .reads hfind

theorem logs_newEntry (notDir noIno noEntry : ℤ) (s : Fs) (path : List UInt8) (env : Env) :
    Logs (newEntryLog s path env) s (newEntry notDir noIno noEntry s path env).2.1
      (newEntry notDir noIno noEntry s path env).2.2 := by
  have hnode := written_getNodeByPath s (dirname path) 0
  have hino := logs_getAvailIno s
  unfold newEntryLog newEntry
  generalize getNodeByPath s (dirname path) 0 = res at hnode ⊢
  rcases res with ⟨_ | parent, e⟩
  · exact .reads hnode
  dsimp only at hnode ⊢
  split
  · exact .reads hnode
  generalize getAvailIno s = res at hino ⊢
  rcases res with ⟨_ | newIno, s₁, e₁⟩
  · dsimp only at hino ⊢
    rw [List.append_nil]
    exact hino.after_reads hnode
  · dsimp only at hino ⊢
    have hadd := logs_dirAdd s₁ parent newIno (basename path) env.addTime
    have hall := (hino.after_reads hnode).append hadd
    generalize dirAdd s₁ parent newIno (basename path) env.addTime = res at hall ⊢
    rcases res with ⟨_ | _, s₂, e₂⟩ <;> exact hall

theorem logs_rufsMkdir (s : Fs) (path : List UInt8) (mode : ℕ) (env : Env) :
    Logs (rufsMkdirLog s path mode env) s (rufsMkdir s path mode env).2.1
      (rufsMkdir s path mode env).2.2 := by
  have hentry := logs_newEntry (-1) (-1) (-1) s path env
  unfold rufsMkdirLog rufsMkdir
  generalize newEntry (-1) (-1) (-1) s path env = res at hentry ⊢
  rcases res with ⟨_ | newIno, s₁, e⟩
  · dsimp only at hentry ⊢
    rw [List.append_nil]
    exact hentry
  dsimp only at hentry ⊢
  have hblk := logs_getAvailBlkno s₁
  generalize getAvailBlkno s₁ = res at hblk ⊢
  rcases res with ⟨_ | blk, s₂, e₁⟩
  · dsimp only at hblk ⊢
    rw [List.append_nil]
    exact hentry.append hblk
  · dsimp only at hblk ⊢
    rw [← List.append_assoc]
    exact (hentry.append hblk).append (logs_writei _ _ _)

theorem logs_rufsCreate (s : Fs) (path : List UInt8) (mode : ℕ) (env : Env) :
    Logs (rufsCreateLog s path mode env) s (rufsCreate s path mode env).2.1
      (rufsCreate s path mode env).2.2 := by
  have hentry := logs_newEntry (-eNotdir) (-eNospc) (-eIo) s path env
  unfold rufsCreateLog rufsCreate
  generalize newEntry (-eNotdir) (-eNospc) (-eIo) s path env = res at hentry ⊢
  rcases res with ⟨_ | newIno, s₁, e⟩
  · dsimp only at hentry ⊢
    rw [List.append_nil]
    exact hentry
  · exact hentry.append (logs_writei _ _ _)

theorem logs_ensureBlk (s : Fs) (file : Inode) (i : ℕ) :
    Logs (ensureBlkLog s file i) s (ensureBlk s file i).2.1 (ensureBlk s file i).2.2 := by
  have hblk := logs_getAvailBlkno s
  unfold ensureBlkLog ensureBlk
  split
  · generalize getAvailBlkno s = res at hblk ⊢
    rcases res with ⟨_ | blk, s₁, e⟩ <;> exact hblk
  · exact .reads rfl

theorem logs_writeLoop (buffer : Bytes) (size n i : ℕ) (s : Fs) (file : Inode)
    (blkOffset bytesWritten : ℕ) :
    Logs (writeLoopLog buffer size n i s file blkOffset bytesWritten) s
      (writeLoop buffer size n i s file blkOffset bytesWritten).2.1
      (writeLoop buffer size n i s file blkOffset bytesWritten).2.2 := by
  induction n generalizing i s file blkOffset bytesWritten with
  | zero => exact .reads rfl
  | succ n ih =>
    have hblk := logs_ensureBlk s file i
    rw [writeLoopLog, writeLoop]
    split
    · generalize ensureBlk s file i = res at hblk ⊢
      rcases res with ⟨_ | file₁, s₁, e⟩
      · dsimp only at hblk ⊢
        rw [List.append_nil]
        exact hblk
      · have hread : written [Event.read (file₁.directPtr i)] = [] := rfl
        exact hblk.append ((ih _ _ _ _ _).write.after_reads hread)
    · exact .reads rfl

theorem logs_rufsWrite {s : Fs} {path : List UInt8} {buffer : Bytes} {size offset : ℕ} {env : Env}
    {r : ℤ × Fs × List Event} (h : rufsWrite s path buffer size offset env = some r) :
    Logs (rufsWriteLog s path buffer size offset env) s r.2.1 r.2.2 := by
  have hnode := written_getNodeByPath s path 0
  unfold rufsWrite at h
  unfold rufsWriteLog
  generalize getNodeByPath s path 0 = res at hnode h ⊢
  rcases res with ⟨_ | file, e⟩
  · obtain rfl := Option.some.inj h
    exact .reads hnode
  dsimp only at hnode h ⊢
  by_cases hreg : file.isReg = false
  · rw [if_pos hreg] at h ⊢
    obtain rfl := Option.some.inj h
    exact .reads hnode
  rw [if_neg hreg] at h ⊢
  by_cases hub : offset / blockSize % 2 ^ 32 ≥ 2 ^ 31 ∧ 0 < size
  · rw [if_pos hub] at h
    exact absurd h (by simp)
  rw [if_neg hub] at h ⊢
  have hloop := logs_writeLoop buffer size (numPtrs - offset / blockSize % 2 ^ 32)
    (offset / blockSize % 2 ^ 32) s file (offset % blockSize) 0
  generalize writeLoop buffer size (numPtrs - offset / blockSize % 2 ^ 32)
    (offset / blockSize % 2 ^ 32) s file (offset % blockSize) 0 = res at hloop h ⊢
  rcases res with ⟨_ | ⟨file₁, bytesWritten⟩, s₁, e₁⟩
  · obtain rfl := Option.some.inj h
    dsimp only at hloop ⊢
    rw [List.append_nil]
    exact hloop.after_reads hnode
  · obtain rfl := Option.some.inj h
    exact (hloop.after_reads hnode).append (logs_writei _ _ _)

/-- **The log of a call is what the call writes.** -/
theorem logs_apply {op : Op} {r : Result} (h : apply s op = some (r, s', e)) :
    Logs (opLog s op) s s' e := by
  cases op with
  | mkdir path mode env =>
    obtain ⟨-, heq⟩ : _ ∧ (rufsMkdir s path.bytes mode.toNat env).2 = (s', e) := by
      simpa [apply] using h
    have hlog := logs_rufsMkdir s path.bytes mode.toNat env
    rw [heq] at hlog
    exact hlog
  | create path mode env =>
    obtain ⟨-, heq⟩ : _ ∧ (rufsCreate s path.bytes mode.toNat env).2 = (s', e) := by
      simpa [apply] using h
    have hlog := logs_rufsCreate s path.bytes mode.toNat env
    rw [heq] at hlog
    exact hlog
  | write path buffer size offset env =>
    obtain ⟨⟨r', s₁, e₁⟩, hw, heq⟩ := Option.map_eq_some_iff.mp h
    obtain ⟨-, rfl, rfl⟩ : _ ∧ s₁ = s' ∧ e₁ = e := by simpa using heq
    exact logs_rufsWrite hw
  | getattr path =>
    obtain ⟨-, rfl, rfl⟩ : _ ∧ s = s' ∧ (rufsGetattr s path.bytes).2 = e := by
      simpa [apply] using h
    have hnode := written_getNodeByPath s path.bytes 0
    refine .reads ?_
    unfold rufsGetattr
    generalize getNodeByPath s path.bytes 0 = res at hnode ⊢
    rcases res with ⟨_ | n, e⟩ <;> exact hnode
  | opendir path =>
    obtain ⟨-, rfl, rfl⟩ : _ ∧ s = s' ∧ (rufsOpendir s path.bytes).2 = e := by
      simpa [apply] using h
    have hnode := written_getNodeByPath s path.bytes 0
    refine .reads ?_
    unfold rufsOpendir
    generalize getNodeByPath s path.bytes 0 = res at hnode ⊢
    rcases res with ⟨_ | n, e⟩ <;> exact hnode
  | «open» path =>
    obtain ⟨-, rfl, rfl⟩ : _ ∧ s = s' ∧ (rufsOpen s path.bytes).2 = e := by
      simpa [apply] using h
    have hnode := written_getNodeByPath s path.bytes 0
    refine .reads ?_
    unfold rufsOpen
    generalize getNodeByPath s path.bytes 0 = res at hnode ⊢
    rcases res with ⟨_ | n, e⟩ <;> exact hnode
  | readdir path =>
    obtain ⟨-, rfl, rfl⟩ : _ ∧ s = s' ∧ (rufsReaddir s path.bytes).2 = e := by
      simpa [apply] using h
    have hnode := written_getNodeByPath s path.bytes 0
    refine .reads ?_
    unfold rufsReaddir
    generalize getNodeByPath s path.bytes 0 = res at hnode ⊢
    rcases res with ⟨_ | dir, e⟩
    · exact hnode
    dsimp only at hnode ⊢
    split
    · exact hnode
    · rw [written_append, hnode, written_readdirFrom, List.nil_append]
  | read path buffer size offset =>
    obtain ⟨-, rfl, rfl⟩ : _ ∧ s = s' ∧
        (rufsRead s path.bytes buffer size.toNat offset.toNat).2 = e := by simpa [apply] using h
    have hnode := written_getNodeByPath s path.bytes 0
    refine .reads ?_
    unfold rufsRead
    generalize getNodeByPath s path.bytes 0 = res at hnode ⊢
    rcases res with ⟨_ | file, e⟩
    · exact hnode
    dsimp only at hnode ⊢
    split
    · exact hnode
    split
    · exact hnode
    · rw [written_append, hnode, written_readLoop, List.nil_append]

end Logs

end Rufs
