import Cs416.Rufs.WriteBack

/-!
# The indices into `direct_ptr`

`rufs_read` and `rufs_write` compute `start_blk` as an `int` from a 64-bit offset and count up
from there. The traced forms of the two functions return, beside their result, the indices at
which they access `direct_ptr`; without the trace they are the functions of the model
(`rufsReadTraced_eq`, `rufsWriteTraced_eq`).

`rufs_read` compares the offset with the 32-bit size first, so the narrowing is harmless there
(`rufsRead_indexSafe`). In `rufs_write` it is not: `rufsWrite_indexSafe_iff` says for which
offsets the indices stay inside the array and start at the block of the offset.
-/

open ByteMem Scan Lts

namespace Rufs

/-! ### The traced functions -/

/-- `int start_blk = offset / BLOCK_SIZE`. -/
def startBlk (offset : ℕ) : ℤ := Int.bmod (offset / blockSize : ℕ) (2 ^ 32)

/-- The loop of `rufs_read`, with the indices into `direct_ptr`. -/
def readLoopTraced (s : Fs) (file : Inode) (size : ℕ) :
    (n i blkOffset bytesRead : ℕ) → Bytes → List ℕ × (ℕ × Bytes) × List Event
  | 0, _, _, bytesRead, buffer => ([], (bytesRead, buffer), [])
  | n + 1, i, blkOffset, bytesRead, buffer =>
    if bytesRead < size then
      let blkno := file.directPtr i
      if blkno = 0 then ([i], (bytesRead, buffer), [])
      else
        let len := toCopy blkOffset (size - bytesRead)
        let buffer := memcpy buffer bytesRead (fun k => s.disk blkno (blkOffset + k)) len
        let r := readLoopTraced s file size n (i + 1) 0 (bytesRead + len) buffer
        (i :: r.1, r.2.1, .read blkno :: r.2.2)
    else ([], (bytesRead, buffer), [])

/-- `rufs_read`, with the indices into `direct_ptr`. A negative one is outside the array, and
there is no result then. -/
def rufsReadTraced (s : Fs) (path : List UInt8) (buffer : Bytes) (size offset : ℕ) :
    List ℤ × Option ((ℤ × Bytes) × List Event) :=
  match getNodeByPath s path 0 with
  | (none, e) => ([], some ((-eNoent, buffer), e))
  | (some file, e) =>
    if file.isReg = false then ([], some ((-eIsdir, buffer), e))
    else if offset ≥ file.size then ([], some ((0, buffer), e))
    else
      let size := if (offset + size) % 2 ^ 64 > file.size then file.size - offset else size
      let start := startBlk offset
      if start < 0 ∧ 0 < size then ([start], none)
      else
        let r := readLoopTraced s file size (numPtrs - start).toNat start.toNat
          (offset % blockSize) 0 buffer
        (r.1.map Int.ofNat, some ((r.2.1.1, r.2.1.2), e ++ r.2.2))

/-- The loop of `rufs_write`, with the indices into `direct_ptr`. -/
def writeLoopTraced (buffer : Bytes) (size : ℕ) : (n i : ℕ) → (s : Fs) → (file : Inode) →
    (blkOffset bytesWritten : ℕ) → List ℕ × Option (Inode × ℕ) × Fs × List Event
  | 0, _, s, file, _, bytesWritten => ([], some (file, bytesWritten), s, [])
  | n + 1, i, s, file, blkOffset, bytesWritten =>
    if bytesWritten < size then
      match ensureBlk s file i with
      | (none, s, e) => ([i], none, s, e)
      | (some file, s, e) =>
        let blk := file.directPtr i
        let len := toCopy blkOffset (size - bytesWritten)
        let s := s.bioWrite blk
          (memcpy (s.disk blk) blkOffset (fun k => buffer (bytesWritten + k)) len)
        let r := writeLoopTraced buffer size n (i + 1) s file 0 (bytesWritten + len)
        (i :: r.1, r.2.1, r.2.2.1, e ++ .read blk :: .write .data blk :: r.2.2.2)
    else ([], some (file, bytesWritten), s, [])

/-- `rufs_write`, with the indices into `direct_ptr`. -/
def rufsWriteTraced (s : Fs) (path : List UInt8) (buffer : Bytes) (size offset : ℕ) (env : Env) :
    List ℤ × Option (ℤ × Fs × List Event) :=
  match getNodeByPath s path 0 with
  | (none, e) => ([], some (-eNoent, s, e))
  | (some file, e) =>
    if file.isReg = false then ([], some (-eIsdir, s, e))
    else
      let start := startBlk offset
      if start < 0 ∧ 0 < size then ([start], none)
      else
        match writeLoopTraced buffer size (numPtrs - start).toNat start.toNat s file
          (offset % blockSize) 0 with
        | (indices, none, s, e₁) => (indices.map Int.ofNat, some (-eNospc, s, e ++ e₁))
        | (indices, some (file, bytesWritten), s, e₁) =>
          let w := writei s file.ino (writeTouch file (offset + bytesWritten) env.now)
          (indices.map Int.ofNat, some (bytesWritten, w.1, e ++ e₁ ++ w.2))

section Traced

variable {s : Fs} {file : Inode} {buffer : Bytes} {size offset : ℕ} {path : List UInt8} {env : Env}

theorem readLoopTraced_eq (n i off r : ℕ) (buffer : Bytes) :
    (readLoopTraced s file size n i off r buffer).2 = readLoop s file size n i off r buffer := by
  induction n generalizing i off r buffer with
  | zero => rfl
  | succ n ih =>
    rw [readLoopTraced, readLoop]
    by_cases hr : r < size
    · by_cases h0 : file.directPtr i = 0
      · rw [if_pos hr, if_pos hr, if_pos h0, if_pos h0]
      · rw [if_pos hr, if_pos hr, if_neg h0, if_neg h0]
        dsimp only
        rw [← ih]
    · rw [if_neg hr, if_neg hr]

theorem writeLoopTraced_eq (n i : ℕ) (s : Fs) (file : Inode) (off w : ℕ) :
    (writeLoopTraced buffer size n i s file off w).2
      = writeLoop buffer size n i s file off w := by
  induction n generalizing i s file off w with
  | zero => rfl
  | succ n ih =>
    rw [writeLoopTraced, writeLoop]
    by_cases hw : w < size
    · rw [if_pos hw, if_pos hw]
      rcases ensureBlk s file i with ⟨_ | file', s', e⟩
      · rfl
      · dsimp only
        rw [← ih]
    · rw [if_neg hw, if_neg hw]

/-- A loop with nothing to do. -/
theorem writeLoop_of_le {n i w off : ℕ} (h : size ≤ w) :
    writeLoop buffer size n i s file off w = (some (file, w), s, []) := by
  cases n with
  | zero => rfl
  | succ n => rw [writeLoop, if_neg (by omega)]

theorem writeLoopTraced_of_le {n i w off : ℕ} (h : size ≤ w) :
    writeLoopTraced buffer size n i s file off w = ([], some (file, w), s, []) := by
  cases n with
  | zero => rfl
  | succ n => rw [writeLoopTraced, if_neg (by omega)]

/-- The narrowed block number, as the remainder that `rufsWrite` uses. -/
theorem startBlk_cases (offset : ℕ) :
    (offset / blockSize % 2 ^ 32 < 2 ^ 31 ∧ startBlk offset = (offset / blockSize % 2 ^ 32 : ℕ)) ∨
      (2 ^ 31 ≤ offset / blockSize % 2 ^ 32 ∧ startBlk offset < 0) := by
  unfold startBlk
  rw [Int.bmod_def]
  split <;> omega

theorem startBlk_of_lt (h : offset < 2 ^ 43) : startBlk offset = (offset / blockSize : ℕ) := by
  have hq : offset / blockSize < 2 ^ 31 := by
    unfold blockSize
    omega
  have hmod : offset / blockSize % 2 ^ 32 = offset / blockSize := Nat.mod_eq_of_lt (by omega)
  have hcases := startBlk_cases offset
  rw [hmod] at hcases
  rcases hcases with ⟨-, h⟩ | ⟨h, -⟩
  · exact h
  · omega

/-- The size of an inode has 32 bits. -/
theorem Inode.size_lt (n : Inode) : n.size < 2 ^ 32 := loadLe_lt n 4 4

/-- Without its trace it is `rufs_read`. -/
theorem rufsReadTraced_eq : ∃ indices, rufsReadTraced s path buffer size offset
    = (indices, some (rufsRead s path buffer size offset)) := by
  unfold rufsReadTraced rufsRead
  rcases hg : getNodeByPath s path 0 with ⟨_ | file, e⟩
  · exact ⟨_, rfl⟩
  dsimp only
  by_cases hreg : file.isReg = false
  · rw [if_pos hreg, if_pos hreg]
    exact ⟨_, rfl⟩
  by_cases hoff : offset ≥ file.size
  · rw [if_neg hreg, if_neg hreg, if_pos hoff, if_pos hoff]
    exact ⟨_, rfl⟩
  -- behind the test of the size the offset is small enough not to be narrowed
  have hlt := file.size_lt
  have hstart := startBlk_of_lt (show offset < 2 ^ 43 by omega)
  have hnneg : ∀ n, ¬ (startBlk offset < 0 ∧ 0 < n) := fun n hn => by
    rw [hstart] at hn
    exact not_lt.mpr (Int.natCast_nonneg _) hn.1
  have hn : (numPtrs - startBlk offset).toNat = numPtrs - offset / blockSize := by
    rw [hstart]
    omega
  have hi : (startBlk offset).toNat = offset / blockSize := by
    rw [hstart, Int.toNat_natCast]
  rw [if_neg hreg, if_neg hreg, if_neg hoff, if_neg hoff, if_neg (hnneg _), hn, hi,
    readLoopTraced_eq]
  exact ⟨_, rfl⟩

/-- `rufsWriteTraced` when there is no regular file. -/
theorem rufsWriteTraced_of_not_reg
    (h : ∀ file, (getNodeByPath s path 0).1 = some file → file.isReg = false) :
    rufsWriteTraced s path buffer size offset env
      = ([], rufsWrite s path buffer size offset env) := by
  unfold rufsWriteTraced rufsWrite
  rcases hg : getNodeByPath s path 0 with ⟨_ | file, e⟩
  · rfl
  · rw [hg] at h
    exact (if_pos (h file rfl)).trans (congrArg (Prod.mk []) (if_pos (h file rfl)).symm)

/-- `rufsWriteTraced` behind the checks. A negative index has no result. -/
theorem rufsWriteTraced_of_neg {e : List Event} (hg : getNodeByPath s path 0 = (some file, e))
    (hreg : ¬ file.isReg = false) (hneg : startBlk offset < 0) (hsize : 0 < size) :
    rufsWriteTraced s path buffer size offset env
      = ([startBlk offset], rufsWrite s path buffer size offset env) := by
  have hge : offset / blockSize % 2 ^ 32 ≥ 2 ^ 31 ∧ 0 < size := by
    rcases startBlk_cases offset with ⟨-, h⟩ | ⟨hge, -⟩
    · rw [h] at hneg
      exact absurd hneg (not_lt.mpr (Int.natCast_nonneg _))
    · exact ⟨hge, hsize⟩
  unfold rufsWriteTraced rufsWrite
  rw [hg]
  refine ((if_neg hreg).trans (if_pos ⟨hneg, hsize⟩)).trans ?_
  exact congrArg (Prod.mk _) ((if_neg hreg).trans (if_pos hge)).symm

/-- Otherwise the loop accesses the array. -/
theorem rufsWriteTraced_of_loop {e e₁ : List Event} {s₁ : Fs} {indices : List ℕ}
    {r : Option (Inode × ℕ)} (hg : getNodeByPath s path 0 = (some file, e))
    (hreg : ¬ file.isReg = false) (hnneg : 0 ≤ startBlk offset ∨ size = 0)
    (hl : writeLoopTraced buffer size (numPtrs - startBlk offset).toNat (startBlk offset).toNat s
      file (offset % blockSize) 0 = (indices, r, s₁, e₁)) :
    rufsWriteTraced s path buffer size offset env
      = (indices.map Int.ofNat, rufsWrite s path buffer size offset env) := by
  have hno : ¬ (startBlk offset < 0 ∧ 0 < size) := by omega
  have hno' : ¬ (offset / blockSize % 2 ^ 32 ≥ 2 ^ 31 ∧ 0 < size) := by
    rcases startBlk_cases offset with ⟨hlt, -⟩ | ⟨-, hneg⟩
    · exact fun h => not_le.mpr hlt h.1
    · exact fun h => hno ⟨hneg, h.2⟩
  have hloop : writeLoop buffer size (numPtrs - offset / blockSize % 2 ^ 32)
      (offset / blockSize % 2 ^ 32) s file (offset % blockSize) 0 = (r, s₁, e₁) := by
    rcases hnneg with hnneg | rfl
    · obtain ⟨-, hstart⟩ := (startBlk_cases offset).resolve_right fun h => not_lt.mpr hnneg h.2
      have hn : (numPtrs - startBlk offset).toNat = numPtrs - offset / blockSize % 2 ^ 32 := by
        rw [hstart]
        omega
      have hi : (startBlk offset).toNat = offset / blockSize % 2 ^ 32 := by
        rw [hstart, Int.toNat_natCast]
      rw [← writeLoopTraced_eq, ← hn, ← hi, hl]
    · -- the loop test fails at once, whatever the index
      rw [writeLoopTraced_of_le le_rfl] at hl
      rw [writeLoop_of_le le_rfl]
      exact congrArg Prod.snd hl
  unfold rufsWriteTraced rufsWrite
  rw [hg]
  refine ((if_neg hreg).trans (if_neg hno)).trans (Eq.trans ?_
    (congrArg (Prod.mk _) ((if_neg hreg).trans (if_neg hno')).symm))
  rw [hl, hloop]
  cases r with
  | none => rfl
  | some x => rfl

/-- Without its trace it is `rufs_write`. -/
theorem rufsWriteTraced_eq : ∃ indices, rufsWriteTraced s path buffer size offset env
    = (indices, rufsWrite s path buffer size offset env) := by
  rcases hg : getNodeByPath s path 0 with ⟨_ | file, e⟩
  · refine ⟨[], rufsWriteTraced_of_not_reg fun file hfile => ?_⟩
    rw [hg] at hfile
    exact absurd hfile (by simp)
  by_cases hreg : file.isReg = false
  · refine ⟨[], rufsWriteTraced_of_not_reg fun file' hfile => ?_⟩
    rw [hg] at hfile
    obtain rfl := Option.some.inj hfile
    exact hreg
  by_cases hneg : startBlk offset < 0 ∧ 0 < size
  · exact ⟨_, rufsWriteTraced_of_neg hg hreg hneg.1 hneg.2⟩
  · rcases hl : writeLoopTraced buffer size (numPtrs - startBlk offset).toNat
      (startBlk offset).toNat s file (offset % blockSize) 0 with ⟨indices, r, s₁, e₁⟩
    exact ⟨_, rufsWriteTraced_of_loop hg hreg (by omega) hl⟩

end Traced

/-! ### The indices of the loops -/

section Loops

variable {s : Fs} {file : Inode} {buffer : Bytes} {size n i off w : ℕ}

/-- The indices count up from `i`, if there is something to read. -/
theorem readLoopTraced_indices {indices : List ℕ} {r : (ℕ × Bytes) × List Event}
    (h : readLoopTraced s file size n i off w buffer = (indices, r)) :
    (∀ k ∈ indices, i ≤ k ∧ k < i + n) ∧ ∀ k, indices.head? = some k → k = i := by
  -- on the blocks that remain
  induction n generalizing i off w buffer indices r with
  | zero =>
    obtain rfl := (congrArg Prod.fst h).symm
    exact ⟨fun k hk => absurd hk List.not_mem_nil, fun k hk => absurd hk (Option.some_ne_none k).symm⟩
  | succ n ih =>
    rw [readLoopTraced] at h
    dsimp only at h
    split at h
    · split at h
      · obtain rfl := (congrArg Prod.fst h).symm
        refine ⟨fun k hk => ?_, fun k hk => (Option.some.inj hk).symm⟩
        rw [List.mem_singleton.mp hk]
        exact ⟨le_rfl, by omega⟩
      · rcases hr : readLoopTraced s file size n (i + 1) 0 (w + toCopy off (size - w))
          (memcpy buffer w (fun k => s.disk (file.directPtr i) (off + k))
            (toCopy off (size - w))) with ⟨rest, r'⟩
        rw [hr] at h
        obtain rfl := (congrArg Prod.fst h).symm
        refine ⟨fun k hk => ?_, fun k hk => (Option.some.inj hk).symm⟩
        rcases List.mem_cons.mp hk with rfl | hk
        · exact ⟨le_rfl, by omega⟩
        · have hbound := (ih hr).1 k hk
          omega
    · obtain rfl := (congrArg Prod.fst h).symm
      exact ⟨fun k hk => absurd hk List.not_mem_nil, fun k hk => absurd hk (Option.some_ne_none k).symm⟩

/-- The indices count up from `i`, if there is something to write. -/
theorem writeLoopTraced_indices {indices : List ℕ} {r : Option (Inode × ℕ) × Fs × List Event}
    (h : writeLoopTraced buffer size n i s file off w = (indices, r)) :
    (∀ k ∈ indices, i ≤ k ∧ k < i + n) ∧ (0 < n → w < size → indices.head? = some i) ∧
      ∀ k, indices.head? = some k → k = i := by
  -- on the blocks that remain
  induction n generalizing i s file off w indices r with
  | zero =>
    obtain rfl := (congrArg Prod.fst h).symm
    exact ⟨fun k hk => absurd hk List.not_mem_nil, fun h0 => absurd h0 (lt_irrefl 0),
      fun k hk => absurd hk (Option.some_ne_none k).symm⟩
  | succ n ih =>
    rw [writeLoopTraced] at h
    split at h
    -- a failure to get a block has accessed its index
    · rcases hb : ensureBlk s file i with ⟨_ | file', s₁, e₁⟩
      · rw [hb] at h
        obtain rfl := (congrArg Prod.fst h).symm
        refine ⟨fun k hk => ?_, fun _ _ => rfl, fun k hk => (Option.some.inj hk).symm⟩
        rw [List.mem_singleton.mp hk]
        exact ⟨le_rfl, by omega⟩
      · rw [hb] at h
        dsimp only at h
        rcases hr : writeLoopTraced buffer size n (i + 1)
          (s₁.bioWrite (file'.directPtr i) (memcpy (s₁.disk (file'.directPtr i)) off
            (fun k => buffer (w + k)) (toCopy off (size - w)))) file' 0
          (w + toCopy off (size - w)) with ⟨rest, r'⟩
        rw [hr] at h
        obtain rfl := (congrArg Prod.fst h).symm
        refine ⟨fun k hk => ?_, fun _ _ => rfl, fun k hk => (Option.some.inj hk).symm⟩
        rcases List.mem_cons.mp hk with rfl | hk
        · exact ⟨le_rfl, by omega⟩
        · have hbound := (ih hr).1 k hk
          omega
    · next hw =>
      obtain rfl := (congrArg Prod.fst h).symm
      exact ⟨fun k hk => absurd hk List.not_mem_nil, fun _ h0 => absurd h0 hw,
        fun k hk => absurd hk (Option.some_ne_none k).symm⟩

end Loops

/-! ### Path lookup writes nothing -/

/-- Nothing but reads. -/
def ReadsOnly (es : List Event) : Prop := ∀ e ∈ es, ∃ blk, e = .read blk

section Lookup

variable {es es' : List Event}

theorem readsOnly_nil : ReadsOnly [] := fun _ h => absurd h List.not_mem_nil

theorem ReadsOnly.cons (h : ReadsOnly es) (blk : ℕ) : ReadsOnly (.read blk :: es) := by
  intro e he
  rcases List.mem_cons.mp he with rfl | he
  · exact ⟨blk, rfl⟩
  · exact h e he

theorem ReadsOnly.append (h : ReadsOnly es) (h' : ReadsOnly es') : ReadsOnly (es ++ es') := by
  intro e he
  rcases List.mem_append.mp he with he | he
  · exact h e he
  · exact h' e he

theorem readi_reads (s : Fs) (ino : ℕ) : ReadsOnly (readi s ino).2 := by
  unfold readi
  split
  · exact readsOnly_nil
  · exact readsOnly_nil.cons _

theorem scanEntries_reads (s : Fs) (dir : Inode) (p : Block → ℕ → Bool) (n i : ℕ) :
    ReadsOnly (scanEntries s dir p n i).2 := by
  induction n generalizing i with
  | zero => exact readsOnly_nil
  | succ n ih =>
    rw [scanEntries]
    dsimp only
    split
    · exact ih _
    · split
      · exact readsOnly_nil.cons _
      · exact (ih _).cons _

theorem dirFind_reads (s : Fs) (ino : ℕ) (fname : Name) : ReadsOnly (dirFind s ino fname).2 := by
  have hread := readi_reads s ino
  unfold dirFind
  split
  · exact readsOnly_nil
  · rcases hr : readi s ino with ⟨_ | dir, e⟩
    · rwa [hr] at hread
    · rw [hr] at hread
      exact hread.append (scanEntries_reads s dir _ _ _)

theorem walk_reads (s : Fs) (cur : Inode) (names : List Name) :
    ReadsOnly (walk s cur names).2 := by
  induction names generalizing cur with
  | nil => exact readsOnly_nil
  | cons token rest ih =>
    have hfind := dirFind_reads s cur.ino token
    rw [walk]
    split
    · exact readsOnly_nil
    rcases hd : dirFind s cur.ino token with ⟨_ | ino, e⟩
    · rwa [hd] at hfind
    have hread := readi_reads s ino
    rw [hd] at hfind
    rcases hr : readi s ino with ⟨_ | next, e₁⟩
    · rw [hr] at hread
      dsimp only
      rw [hr]
      exact hfind.append hread
    · rw [hr] at hread
      dsimp only
      rw [hr]
      exact (hfind.append hread).append (ih next)

theorem getNodeByPath_reads (s : Fs) (path : List UInt8) (ino : ℕ) :
    ReadsOnly (getNodeByPath s path ino).2 := by
  have hread := readi_reads s ino
  unfold getNodeByPath
  rcases hr : readi s ino with ⟨_ | cur, e⟩
  · rwa [hr] at hread
  · rw [hr] at hread
    dsimp only
    split
    · exact hread
    · exact hread.append (walk_reads s cur _)

theorem getNodeByPath_noData (s : Fs) (path : List UInt8) (ino blk : ℕ) :
    Event.write .data blk ∉ (getNodeByPath s path ino).2 := by
  intro h
  obtain ⟨b, hb⟩ := getNodeByPath_reads s path ino _ h
  exact Event.noConfusion hb

end Lookup

/-! ### Index safety -/

/-- The indices of a call at `offset` lie inside `direct_ptr` and start at the block of the
offset. -/
structure IndexSafe (indices : List ℤ) (offset : ℕ) : Prop where
  bounds : ∀ i ∈ indices, 0 ≤ i ∧ i < 16
  first : ∀ i, indices.head? = some i → i = (offset / blockSize : ℕ)

/-- A write has safe indices, and stores nothing at an offset behind the `16` blocks. -/
structure WriteIndexSafe (s : Fs) (path : List UInt8) (buffer : Bytes) (size offset : ℕ)
    (env : Env) : Prop where
  indices : IndexSafe (rufsWriteTraced s path buffer size offset env).1 offset
  behind : 16 * blockSize ≤ offset → ∃ r s' e,
    (rufsWriteTraced s path buffer size offset env).2 = some (r, s', e) ∧
      ∀ blk, Event.write .data blk ∉ e

/-- There is nothing to write, or the block number of the offset is one of the `16`, or it is
still behind them, and not negative, after it was narrowed to an `int`. -/
def StartFits (size offset : ℕ) : Prop :=
  size = 0 ∨ offset < 16 * blockSize ∨
    16 ≤ offset / blockSize % 2 ^ 32 ∧ offset / blockSize % 2 ^ 32 < 2 ^ 31

section Safety

variable {s : Fs} {file : Inode} {path : List UInt8} {buffer : Bytes} {size offset : ℕ} {env : Env}

theorem indexSafe_nil : IndexSafe [] offset where
  bounds _ hi := absurd hi List.not_mem_nil
  first i hi := absurd hi (Option.some_ne_none i).symm

/-- A loop from the block of the offset has safe indices. -/
theorem indexSafe_map {indices : List ℕ} {start : ℕ} (hstart : start = offset / blockSize)
    (hbound : ∀ k ∈ indices, k < numPtrs) (hfirst : ∀ k, indices.head? = some k → k = start) :
    IndexSafe (indices.map Int.ofNat) offset where
  bounds i hi := by
    obtain ⟨k, hk, rfl⟩ := List.mem_map.mp hi
    have hlt := hbound k hk
    exact ⟨Int.natCast_nonneg k, Int.ofNat_lt.mpr hlt⟩
  first i hi := by
    rw [List.head?_map] at hi
    obtain ⟨k, hk, rfl⟩ := Option.map_eq_some_iff.mp hi
    rw [hfirst k hk, hstart]
    rfl

/-- **`rufs_read` never leaves the array.** -/
theorem rufsRead_indexSafe (s : Fs) (path : List UInt8) (buffer : Bytes) (size offset : ℕ) :
    IndexSafe (rufsReadTraced s path buffer size offset).1 offset := by
  unfold rufsReadTraced
  rcases hg : getNodeByPath s path 0 with ⟨_ | file, e⟩
  · exact indexSafe_nil
  dsimp only
  by_cases hreg : file.isReg = false
  · rw [if_pos hreg]
    exact indexSafe_nil
  by_cases hoff : offset ≥ file.size
  · rw [if_neg hreg, if_pos hoff]
    exact indexSafe_nil
  -- an offset below the 32-bit size is not narrowed
  have hlt := file.size_lt
  have hstart := startBlk_of_lt (show offset < 2 ^ 43 by omega)
  have hnneg : ∀ n, ¬ (startBlk offset < 0 ∧ 0 < n) := fun n hn => by
    rw [hstart] at hn
    exact not_lt.mpr (Int.natCast_nonneg _) hn.1
  rw [if_neg hreg, if_neg hoff, if_neg (hnneg _)]
  generalize (if (offset + size) % 2 ^ 64 > file.size then file.size - offset else size) = want
  have hi : (startBlk offset).toNat = offset / blockSize := by
    rw [hstart, Int.toNat_natCast]
  rcases hl : readLoopTraced s file want (numPtrs - startBlk offset).toNat (startBlk offset).toNat
    (offset % blockSize) 0 buffer with ⟨indices, r⟩
  obtain ⟨hbound, hfirst⟩ := readLoopTraced_indices hl
  refine indexSafe_map hi (fun k hk => ?_) hfirst
  have hk' := hbound k hk
  omega

/-- `rufs_write` when there is no regular file. -/
theorem rufsWrite_of_not_reg
    (h : ∀ file, (getNodeByPath s path 0).1 = some file → file.isReg = false) :
    ∃ r, rufsWrite s path buffer size offset env = some (r, s, (getNodeByPath s path 0).2) := by
  unfold rufsWrite
  rcases hg : getNodeByPath s path 0 with ⟨_ | file, e⟩
  · exact ⟨_, rfl⟩
  · rw [hg] at h
    exact ⟨_, if_pos (h file rfl)⟩

/-- `rufs_write` stores nothing when its loop does not start. -/
theorem rufsWrite_idle {e : List Event} (hg : getNodeByPath s path 0 = (some file, e))
    (hreg : ¬ file.isReg = false)
    (h : size = 0 ∨ 16 ≤ offset / blockSize % 2 ^ 32 ∧ offset / blockSize % 2 ^ 32 < 2 ^ 31) :
    ∃ r s' e', rufsWrite s path buffer size offset env = some (r, s', e') ∧
      ∀ blk, Event.write .data blk ∉ e' := by
  have hno : ¬ (offset / blockSize % 2 ^ 32 ≥ 2 ^ 31 ∧ 0 < size) := by
    rintro ⟨hge, hpos⟩
    rcases h with rfl | ⟨-, hlt⟩
    · exact lt_irrefl 0 hpos
    · exact not_le.mpr hlt hge
  -- either there is nothing to store, or the first index is behind the array
  have hloop : writeLoop buffer size (numPtrs - offset / blockSize % 2 ^ 32)
      (offset / blockSize % 2 ^ 32) s file (offset % blockSize) 0 = (some (file, 0), s, []) := by
    rcases h with rfl | ⟨hge, -⟩
    · exact writeLoop_of_le le_rfl
    · rw [Nat.sub_eq_zero_of_le hge]
      rfl
  have heq : rufsWrite s path buffer size offset env =
      some (0, (writei s file.ino (writeTouch file (offset + 0) env.now)).1,
        e ++ [] ++ (writei s file.ino (writeTouch file (offset + 0) env.now)).2) := by
    unfold rufsWrite
    rw [hg]
    refine ((if_neg hreg).trans (if_neg hno)).trans ?_
    rw [hloop]
    rfl
  refine ⟨_, _, _, heq, fun blk hblk => ?_⟩
  rw [List.append_nil] at hblk
  -- the path walk and the final `writei` write no data block
  rcases List.mem_append.mp hblk with hblk | hblk
  · have hdata := getNodeByPath_noData s path 0 blk
    rw [hg] at hdata
    exact hdata hblk
  · unfold writei at hblk
    split at hblk
    · exact absurd hblk List.not_mem_nil
    · simp at hblk

/-- **When `rufs_write` stays inside the array**, for a regular file. -/
theorem rufsWrite_indexSafe_iff {e : List Event} (hg : getNodeByPath s path 0 = (some file, e))
    (hreg : ¬ file.isReg = false) :
    WriteIndexSafe s path buffer size offset env ↔ StartFits size offset := by
  have hblk : blockSize = 4096 := rfl
  have hptrs : (numPtrs : ℤ) = 16 := rfl
  by_cases hneg : startBlk offset < 0 ∧ 0 < size
  · -- the first index is negative
    have heq : rufsWriteTraced s path buffer size offset env = _ :=
      rufsWriteTraced_of_neg hg hreg hneg.1 hneg.2
    refine iff_of_false (fun h => ?_) ?_
    · have hbound := h.indices.bounds (startBlk offset) (by rw [heq]; exact List.mem_singleton_self _)
      omega
    · have hge := (startBlk_cases offset).resolve_left fun h => by
        rw [h.2] at hneg
        exact absurd hneg.1 (not_lt.mpr (Int.natCast_nonneg _))
      rintro (hsize | hoff | hfit)
      · omega
      · rw [startBlk_of_lt (by omega)] at hneg
        exact absurd hneg.1 (not_lt.mpr (Int.natCast_nonneg _))
      · exact absurd hfit.2 (not_lt.mpr hge.1)
  rcases hl : writeLoopTraced buffer size (numPtrs - startBlk offset).toNat
    (startBlk offset).toNat s file (offset % blockSize) 0 with ⟨indices, r, s₁, e₁⟩
  obtain ⟨hbound, hhead, hfirst⟩ := writeLoopTraced_indices hl
  have heq : rufsWriteTraced s path buffer size offset env = _ :=
    rufsWriteTraced_of_loop hg hreg (by omega) hl
  have hstart : 0 < size → startBlk offset = (offset / blockSize % 2 ^ 32 : ℕ) ∧
      offset / blockSize % 2 ^ 32 < 2 ^ 31 := fun hpos => by
    obtain ⟨hlt, h⟩ := (startBlk_cases offset).resolve_right fun h => hneg ⟨h.2, hpos⟩
    exact ⟨h, hlt⟩
  constructor
  · rintro ⟨⟨-, hsafe⟩, -⟩
    by_cases hpos : 0 < size
    · obtain ⟨hs, hlt⟩ := hstart hpos
      by_cases hge : 16 ≤ offset / blockSize % 2 ^ 32
      · exact .inr (.inr ⟨hge, hlt⟩)
      · -- the loop starts, at the narrowed block number
        have hn : 0 < (numPtrs - startBlk offset).toNat := by
          rw [hs]
          omega
        have hsome := hsafe (startBlk offset) (by
          rw [heq, List.head?_map, hhead hn hpos, hs]
          rfl)
        rw [hs] at hsome
        have hq : offset / blockSize % 2 ^ 32 = offset / blockSize := Int.ofNat_inj.mp hsome
        exact .inr (.inl ((Nat.div_lt_iff_lt_mul (by decide)).mp (by omega)))
    · exact .inl (by omega)
  · intro hfit
    by_cases hidle : size = 0 ∨
        16 ≤ offset / blockSize % 2 ^ 32 ∧ offset / blockSize % 2 ^ 32 < 2 ^ 31
    · have hnil : indices = [] := by
        refine List.eq_nil_iff_forall_not_mem.mpr fun k hk => ?_
        rcases hidle with rfl | ⟨hge, hlt⟩
        · rw [writeLoopTraced_of_le le_rfl] at hl
          rw [show indices = [] from (congrArg Prod.fst hl).symm] at hk
          exact absurd hk List.not_mem_nil
        · have hk' := hbound k hk
          obtain ⟨-, hs⟩ | hs := startBlk_cases offset <;> omega
      obtain ⟨r', s', e', hw, hdata⟩ : ∃ r' s' e', rufsWrite s path buffer size offset env
          = some (r', s', e') ∧ ∀ blk, Event.write .data blk ∉ e' := rufsWrite_idle hg hreg hidle
      refine ⟨?_, fun _ => ⟨r', s', e', ?_, hdata⟩⟩
      · rw [heq, hnil]
        exact indexSafe_nil
      · rw [heq]
        exact hw
    · have hoff : offset < 16 * blockSize := by
        rcases hfit with h | h | h
        · exact absurd (.inl h) hidle
        · exact h
        · exact absurd (.inr h) hidle
      have hs := startBlk_of_lt (show offset < 2 ^ 43 by omega)
      refine ⟨?_, fun hle => absurd hle (by omega)⟩
      rw [heq]
      refine indexSafe_map (by rw [hs, Int.toNat_natCast]) (fun k hk => ?_) hfirst
      have hk' := hbound k hk
      rw [hs] at hk'
      omega

end Safety

/-- **Block index safety.** For every offset and size, `rufs_read` and `rufs_write` access
`direct_ptr` inside its `16` entries and from the block of the offset on, and a write behind the
blocks stores nothing, exactly when there is no regular file at the path or `StartFits`. -/
theorem block_index_safe_iff (s : Fs) (path : List UInt8) (buffer out : Bytes) (size offset : ℕ)
    (env : Env) :
    IndexSafe (rufsReadTraced s path out size offset).1 offset ∧
        WriteIndexSafe s path buffer size offset env ↔
      ((∃ file, (getNodeByPath s path 0).1 = some file ∧ file.isReg = true) →
        StartFits size offset) := by
  rw [and_iff_right (rufsRead_indexSafe s path out size offset)]
  rcases hg : getNodeByPath s path 0 with ⟨node, e⟩
  by_cases hreg : ∃ file, node = some file ∧ file.isReg = true
  · obtain ⟨file, rfl, hfile⟩ := hreg
    rw [rufsWrite_indexSafe_iff hg (by rw [hfile]; decide)]
    exact ⟨fun h _ => h, fun h => h ⟨file, rfl, hfile⟩⟩
  · have hno : ∀ file, (getNodeByPath s path 0).1 = some file → file.isReg = false := by
      intro file hfile
      rw [hg] at hfile
      exact Bool.eq_false_iff.mpr fun h => hreg ⟨file, hfile, h⟩
    have heq : rufsWriteTraced s path buffer size offset env = _ := rufsWriteTraced_of_not_reg hno
    refine iff_of_true ⟨?_, fun _ => ?_⟩ fun h => absurd h hreg
    · rw [heq]
      exact indexSafe_nil
    · obtain ⟨r, hw⟩ : ∃ r, rufsWrite s path buffer size offset env
          = some (r, s, (getNodeByPath s path 0).2) := rufsWrite_of_not_reg hno
      rw [heq]
      exact ⟨r, s, _, hw, getNodeByPath_noData s path 0⟩

/-- The file `/a` and the offset `2 ^ 44`, whose block number is `0` as an `int`. -/
theorem narrowed_index : ∃ file, (getNodeByPath firstFile pathA.bytes 0).1 = some file ∧
    file.isReg = true ∧
    ¬ (IndexSafe (rufsReadTraced firstFile pathA.bytes (fun _ => 0) 1 (2 ^ 44)).1 (2 ^ 44) ∧
      WriteIndexSafe firstFile pathA.bytes (fun _ => 1) 1 (2 ^ 44) ⟨0, 0, 0, 0⟩) := by
  obtain ⟨file, hfile, hreg⟩ := firstFile_node
  refine ⟨file, hfile, hreg, fun h => ?_⟩
  rcases hg : getNodeByPath firstFile pathA.bytes 0 with ⟨node, e⟩
  rw [hg] at hfile
  obtain rfl : node = some file := hfile
  have hfit := (rufsWrite_indexSafe_iff hg (by rw [hreg]; decide)).mp h.2
  unfold StartFits blockSize at hfit
  omega

end Rufs
