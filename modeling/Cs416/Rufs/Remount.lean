import Cs416.Rufs.Safety

/-!
# Regions and remounting

`Frames s s' e` says that the events `e` explain the step from `s` to `s'`: a block that no
write event names is the same. It holds of every operation by construction, so what the write
events of a run respect, the disk respects. A run never writes block `0`; the superblock in
memory stays the one on disk, and unmounting and mounting again is invisible.
-/

open ByteMem Scan Lts

namespace Rufs

/-- The write events account for every block that changed. -/
structure Frames (s s' : Fs) (e : List Event) : Prop where
  sb : s'.sb = s.sb
  disk : ∀ b, (∀ w, .write w b ∉ e) → s'.disk b = s.disk b

section Frames

variable {s s₁ s' : Fs} {e e₁ e₂ : List Event}

theorem Frames.refl (s : Fs) (e : List Event) : Frames s s e := ⟨rfl, fun _ _ => rfl⟩

theorem Frames.mono (h : Frames s s' e₁) (hs : ∀ x ∈ e₁, x ∈ e) : Frames s s' e :=
  ⟨h.sb, fun b hb => h.disk b fun w hw => hb w (hs _ hw)⟩

theorem Frames.trans (h₁ : Frames s s₁ e₁) (h₂ : Frames s₁ s' e₂) : Frames s s' (e₁ ++ e₂) where
  sb := h₂.sb.trans h₁.sb
  disk b hb := by
    rw [h₂.disk b fun w hw => hb w (List.mem_append_right _ hw),
      h₁.disk b fun w hw => hb w (List.mem_append_left _ hw)]

/-- Events of reads in front. -/
theorem Frames.after (h : Frames s s' e₂) : Frames s s' (e₁ ++ e₂) := (Frames.refl s e₁).trans h

theorem frames_bioWrite (s : Fs) (w : Writer) (b : ℕ) (blk : Block) :
    Frames s (s.bioWrite b blk) [.write w b] where
  sb := rfl
  disk c hc := by
    refine Fs.bioWrite_of_ne s ?_ blk
    rintro rfl
    exact hc w (List.mem_singleton.mpr rfl)

theorem frames_writei (s : Fs) (i : ℕ) (n : Inode) : Frames s (writei s i n).1 (writei s i n).2 := by
  unfold writei
  split
  · exact .refl s _
  · exact (frames_bioWrite s .writei _ _).mono fun x hx => List.mem_cons_of_mem _ hx

theorem frames_getAvailIno (s : Fs) : Frames s (getAvailIno s).2.1 (getAvailIno s).2.2 := by
  unfold getAvailIno
  dsimp only
  split
  · exact (frames_bioWrite s .getAvailIno _ _).mono fun x hx => List.mem_cons_of_mem _ hx
  · exact .refl s _

theorem frames_getAvailBlkno (s : Fs) : Frames s (getAvailBlkno s).2.1 (getAvailBlkno s).2.2 := by
  unfold getAvailBlkno
  dsimp only
  split
  · refine (frames_bioWrite s .getAvailBlkno _ _).mono fun x hx => ?_
    rw [List.mem_singleton.mp hx]
    exact List.mem_cons_of_mem _ List.mem_cons_self
  · exact .refl s _

theorem frames_dirGrow (s : Fs) (dir : Inode) (f : ℕ) (c : Name) (t : ℕ) :
    Frames s (dirGrow s dir f c t).2.1 (dirGrow s dir f c t).2.2 := by
  have hblk := frames_getAvailBlkno s
  unfold dirGrow
  rcases hg : getAvailBlkno s with ⟨_ | b, s₁, e₁⟩ <;>
  rw [hg] at hblk
  · exact hblk
  · dsimp only
    split
    · exact hblk
    · exact hblk.trans ((frames_bioWrite s₁ .data b _).trans (frames_writei _ _ _))

theorem frames_dirAdd (s : Fs) (dir : Inode) (f : ℕ) (c : Name) (t : ℕ) :
    Frames s (dirAdd s dir f c t).2.1 (dirAdd s dir f c t).2.2 := by
  unfold dirAdd
  split
  · exact .refl s _
  rcases dirFind s dir.ino c with ⟨_ | j, e⟩
  · dsimp only
    rcases scanEntries s dir entFree numPtrs 0 with ⟨_ | ⟨b, j⟩, e₁⟩
    · exact (frames_dirGrow s dir f c t).after
    · exact ((frames_bioWrite s .data b _).trans (frames_writei _ _ _)).after
  · exact .refl s _

theorem frames_newEntry (notDir noIno noEntry : ℤ) (s : Fs) (path : List UInt8) (env : Env) :
    Frames s (newEntry notDir noIno noEntry s path env).2.1
      (newEntry notDir noIno noEntry s path env).2.2 := by
  have hino := frames_getAvailIno s
  unfold newEntry
  rcases getNodeByPath s (dirname path) 0 with ⟨_ | parent, e⟩
  · exact .refl s _
  dsimp only
  split
  · exact .refl s _
  rcases hi : getAvailIno s with ⟨_ | j, s₁, e₁⟩ <;>
  rw [hi] at hino
  · exact hino.after
  dsimp only
  have hadd := frames_dirAdd s₁ parent j (basename path) env.addTime
  rcases ha : dirAdd s₁ parent j (basename path) env.addTime with ⟨_ | _, s₂, e₂⟩ <;>
  · rw [ha] at hadd
    exact hino.after.trans hadd

theorem frames_rufsMkdir (s : Fs) (path : List UInt8) (mode : ℕ) (env : Env) :
    Frames s (rufsMkdir s path mode env).2.1 (rufsMkdir s path mode env).2.2 := by
  have hentry := frames_newEntry (-1) (-1) (-1) s path env
  unfold rufsMkdir
  rcases hn : newEntry (-1) (-1) (-1) s path env with ⟨_ | j, s₁, e₁⟩ <;>
  rw [hn] at hentry
  · exact hentry
  dsimp only
  have hblk := frames_getAvailBlkno s₁
  rcases hg : getAvailBlkno s₁ with ⟨_ | b, s₂, e₂⟩ <;>
  rw [hg] at hblk
  · exact hentry.trans hblk
  · exact (hentry.trans hblk).trans (frames_writei _ _ _)

theorem frames_rufsCreate (s : Fs) (path : List UInt8) (mode : ℕ) (env : Env) :
    Frames s (rufsCreate s path mode env).2.1 (rufsCreate s path mode env).2.2 := by
  have hentry := frames_newEntry (-eNotdir) (-eNospc) (-eIo) s path env
  unfold rufsCreate
  rcases hn : newEntry (-eNotdir) (-eNospc) (-eIo) s path env with ⟨_ | j, s₁, e₁⟩ <;>
  rw [hn] at hentry
  · exact hentry
  · exact hentry.trans (frames_writei _ _ _)

theorem frames_ensureBlk (s : Fs) (file : Inode) (i : ℕ) :
    Frames s (ensureBlk s file i).2.1 (ensureBlk s file i).2.2 := by
  have hblk := frames_getAvailBlkno s
  unfold ensureBlk
  split
  · rcases hg : getAvailBlkno s with ⟨_ | b, s₁, e₁⟩ <;>
    · rw [hg] at hblk
      exact hblk
  · exact .refl s _

theorem frames_writeLoop (buffer : Bytes) (size n i : ℕ) (s : Fs) (file : Inode) (off w : ℕ) :
    Frames s (writeLoop buffer size n i s file off w).2.1
      (writeLoop buffer size n i s file off w).2.2 := by
  induction n generalizing i s file off w with
  | zero => exact .refl s _
  | succ n ih =>
    rw [writeLoop]
    split
    · have hblk := frames_ensureBlk s file i
      rcases hb : ensureBlk s file i with ⟨_ | file', s₁, e₁⟩ <;>
      rw [hb] at hblk
      · exact hblk
      · refine hblk.trans ?_
        refine (Frames.refl s₁ [.read (file'.directPtr i)]).trans ?_
        exact (frames_bioWrite s₁ .data _ _).trans (ih _ _ _ _ _)
    · exact .refl s _

theorem frames_rufsWrite {path : List UInt8} {buffer : Bytes} {size offset : ℕ} {env : Env} {r : ℤ}
    (h : rufsWrite s path buffer size offset env = some (r, s', e)) : Frames s s' e := by
  unfold rufsWrite at h
  -- the path walk reads only
  rcases hg : getNodeByPath s path 0 with ⟨_ | file, e₀⟩
  · rw [hg] at h
    obtain ⟨-, rfl, rfl⟩ : -eNoent = r ∧ s = s' ∧ e₀ = e := by simpa using h
    exact .refl s _
  rw [hg] at h
  dsimp only at h
  split at h
  · obtain ⟨-, rfl, rfl⟩ : -eIsdir = r ∧ s = s' ∧ e₀ = e := by simpa using h
    exact .refl s _
  split at h
  · exact absurd h (by simp)
  have hloop := frames_writeLoop buffer size (numPtrs - offset / blockSize % 2 ^ 32)
    (offset / blockSize % 2 ^ 32) s file (offset % blockSize) 0
  rcases hl : writeLoop buffer size (numPtrs - offset / blockSize % 2 ^ 32)
    (offset / blockSize % 2 ^ 32) s file (offset % blockSize) 0 with ⟨_ | ⟨n, w⟩, s₁, e₁⟩
  -- a loop that fails has still written what it did before
  · rw [hl] at h hloop
    obtain ⟨-, rfl, rfl⟩ : -eNospc = r ∧ s₁ = s' ∧ e₀ ++ e₁ = e := by simpa using h
    exact hloop.after
  · rw [hl] at h hloop
    have heq := Option.some.inj h
    have hs : _ = s' := congrArg (fun x => x.2.1) heq
    have he : _ = e := congrArg (fun x => x.2.2) heq
    rw [← hs, ← he]
    exact hloop.after.trans (frames_writei _ _ _)

/-- Every operation is accounted for. -/
theorem frames_apply {op : Op} {r : Result} (h : apply s op = some (r, s', e)) : Frames s s' e := by
  -- three operations write, the others only read
  cases op with
  | mkdir path mode env =>
    have hs := congrArg (fun x => x.2) (Option.some.inj h)
    have hfr := frames_rufsMkdir s path.bytes mode.toNat env
    rwa [show (rufsMkdir s path.bytes mode.toNat env).2 = (s', e) from hs] at hfr
  | create path mode env =>
    have hs := congrArg (fun x => x.2) (Option.some.inj h)
    have hfr := frames_rufsCreate s path.bytes mode.toNat env
    rwa [show (rufsCreate s path.bytes mode.toNat env).2 = (s', e) from hs] at hfr
  | write path buffer size offset env =>
    obtain ⟨⟨r', s₁, e₁⟩, hw, heq⟩ := Option.map_eq_some_iff.mp h
    obtain ⟨-, rfl, rfl⟩ : _ ∧ s₁ = s' ∧ e₁ = e := by simpa using heq
    exact frames_rufsWrite hw
  | getattr path =>
    obtain rfl : s = s' := congrArg (fun x => x.2.1) (Option.some.inj h)
    exact .refl s _
  | opendir path =>
    obtain rfl : s = s' := congrArg (fun x => x.2.1) (Option.some.inj h)
    exact .refl s _
  | readdir path =>
    obtain rfl : s = s' := congrArg (fun x => x.2.1) (Option.some.inj h)
    exact .refl s _
  | «open» path =>
    obtain rfl : s = s' := congrArg (fun x => x.2.1) (Option.some.inj h)
    exact .refl s _
  | read path buffer size offset =>
    obtain rfl : s = s' := congrArg (fun x => x.2.1) (Option.some.inj h)
    exact .refl s _

end Frames

/-! ### Regions -/

/-- A write respects the regions that the superblock describes: inode writes go to the inode
table, directory and file data to the data region, and the bitmaps are left to the two
allocators. -/
def RegionOk (sb : Superblock) : Event → Prop
  | .write .writei blk => sb.iStartBlk ≤ blk ∧ blk < sb.dStartBlk
  | .write .data blk => sb.dStartBlk ≤ blk
  | .write .getAvailIno blk => blk = sb.iBitmapBlk
  | .write .getAvailBlkno blk => blk = sb.dBitmapBlk
  | .write .mkfs _ => False
  | .read _ => True
  | .allocBlk _ _ => True

theorem EventOk.regionOk {N : ℕ} {e : Event} (h : EventOk N e) : RegionOk .fresh e := by
  cases e with
  | read _ => trivial
  | write w blk =>
    cases w with
    | mkfs => exact h
    | getAvailIno => exact h
    | getAvailBlkno => exact h
    | writei => exact h
    | data => exact h.1
  | allocBlk _ _ => trivial

/-! ### Remounting -/

/-- The file system after `rufs_destroy` and `rufs_init`, with the disk file in place. -/
def remount (s : Fs) : Fs := (rufsInit (rufsDestroy s).2.1).1

/-- A sequence of operations: their results and the file system they leave. -/
def applyAll : Fs → List Op → Option (List Result × Fs)
  | s, [] => some ([], s)
  | s, op :: ops => do
    let (r, s, _) ← apply s op
    let (rs, s) ← applyAll s ops
    return (r :: rs, s)

theorem Fs.Mounted.remount {s : Fs} (h : s.Mounted) : Rufs.remount s = s := by
  have hsb : Superblock.decode (s.disk 0) = s.sb := h.disk.trans h.sb.symm
  unfold Rufs.remount rufsInit rufsDestroy
  rw [hsb]

/-- **Remount transparency and region separation.** In every run the superblock in memory is
the one in block `0`, each write stays in its region and accounts for what changed, and a
remount changes nothing: not the results of any operations that follow, nor the final disk. -/
theorem remount_transparent {cs : List Call} {s : Fs} (h : Run system cs s) :
    s.sb = Superblock.decode (s.disk 0) ∧
    (∀ c ∈ cs, ∀ e ∈ c.events, RegionOk s.sb e) ∧
    (∀ c s', system.step s c s' →
      (∀ e ∈ c.events, RegionOk s.sb e) ∧
      ∀ b, (∀ w, .write w b ∉ c.events) → s'.disk b = s.disk b) ∧
    ∀ ops, applyAll (remount s) ops = applyAll s ops := by
  have hgood := reachable_good ⟨cs, h⟩
  have hsb := hgood.mounted.sb
  refine ⟨hsb.trans hgood.mounted.disk.symm, ?_, ?_, ?_⟩
  · intro c hc e he
    rw [hsb]
    exact (run_eventsOk h c hc e he).regionOk
  · intro c s' hs
    refine ⟨fun e he => ?_, (frames_apply hs).disk⟩
    rw [hsb]
    exact ((apply_good_max hgood hs).2 e he).regionOk
  · intro ops
    rw [hgood.mounted.remount]

/-- After the first `mkdir`. -/
theorem remount_transparent_first :
    let s := (rufsMkdir freshFs pathA.bytes 0o755 ⟨0, 0, 0, 0⟩).2.1
    s.sb = Superblock.decode (s.disk 0) ∧
    (∀ c ∈ [firstMkdir], ∀ e ∈ c.events, RegionOk s.sb e) ∧
    (∀ c s', system.step s c s' →
      (∀ e ∈ c.events, RegionOk s.sb e) ∧
      ∀ b, (∀ w, .write w b ∉ c.events) → s'.disk b = s.disk b) ∧
    ∀ ops, applyAll (remount s) ops = applyAll s ops :=
  remount_transparent firstMkdir_run

end Rufs
