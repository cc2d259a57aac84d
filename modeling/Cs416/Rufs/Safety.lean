import Cs416.Rufs.Runs

/-!
# Safety of whole runs

Three properties of every run: the blocks of the reachable file systems have one owner each,
the allocator never fails, and block accesses stay on the device as long as the allocator
finds a block of the device. The last is conditional because the data bitmap has a bit for
`MAX_DNUM` blocks, about twice as many as the 32 MB image holds.
-/

open ByteMem Scan Lts

namespace Rufs

/-! ### Ownership -/

/-- Every block has at most one owner, and the bitmaps know. An inode is valid when `readi`
returns it. -/
structure BlockOwnership (s : Fs) : Prop where
  /-- A valid inode and its blocks are marked, and the blocks lie in the data region. -/
  marked : ∀ ino inode, (readi s ino).1 = some inode →
    getBitmap (s.disk s.sb.iBitmapBlk) ino = 1 ∧
    ∀ k < numPtrs, inode.directPtr k ≠ 0 →
      s.sb.dStartBlk ≤ inode.directPtr k ∧ inode.directPtr k < s.sb.dStartBlk + s.sb.maxDnum ∧
      getBitmap (s.disk s.sb.dBitmapBlk) (inode.directPtr k - s.sb.dStartBlk) = 1
  /-- A block occurs once over all pointers of all valid inodes. -/
  unique : ∀ ino inode ino' inode' k k', (readi s ino).1 = some inode →
    (readi s ino').1 = some inode' → k < numPtrs → k' < numPtrs → inode.directPtr k ≠ 0 →
    inode.directPtr k = inode'.directPtr k' → ino = ino' ∧ k = k'
  /-- A block that is not marked reads as zeros. -/
  zero : ∀ j < s.sb.maxDnum, getBitmap (s.disk s.sb.dBitmapBlk) j = 0 →
    ∀ x < blockSize, s.disk (s.sb.dStartBlk + j) x = 0

section Ownership

variable {s : Fs}

theorem readi_eq_some (h : s.Mounted) {ino : ℕ} {inode : Inode} :
    (readi s ino).1 = some inode ↔ s.vol.Valid ino ∧ s.vol.inode ino = inode := by
  rw [readi_eq h]
  by_cases hv : (s.vol.inode ino).valid = 0
  · simp [hv]
  · simp [hv]

theorem getBitmap_eq_one (b : Block) (i : ℕ) : getBitmap b i = 1 ↔ bit b i = true := by
  rw [getBitmap_eq]
  cases bit b i <;> decide

theorem getBitmap_eq_zero (b : Block) (i : ℕ) : getBitmap b i = 0 ↔ bit b i = false := by
  rw [getBitmap_eq]
  cases bit b i <;> decide

theorem blockOwnership_of_owned (hm : s.Mounted) (ho : Owned maxDnum s.vol) :
    BlockOwnership s := by
  have hsb := hm.sb
  refine ⟨?_, ?_, ?_⟩
  · intro ino inode hread
    obtain ⟨hv, rfl⟩ := (readi_eq_some hm).mp hread
    rw [hsb, getBitmap_eq_one]
    refine ⟨(ho.ibit_of_valid ino hv).2, fun k hk hp => ?_⟩
    obtain ⟨j, hj, hjp, hbit⟩ := ho.ptr_used ino k hv hk hp
    rw [Vol.ptr] at hjp
    rw [hjp, Superblock.fresh_dStartBlk, Nat.add_sub_cancel_left, getBitmap_eq_one]
    exact ⟨Nat.le_add_right _ _, Nat.add_lt_add_left hj _, hbit⟩
  · intro ino inode ino' inode' k k' hread hread' hk hk' hp heq
    obtain ⟨hv, rfl⟩ := (readi_eq_some hm).mp hread
    obtain ⟨hv', rfl⟩ := (readi_eq_some hm).mp hread'
    exact ho.ptr_inj ino k ino' k' hv hv' hk hk' hp heq
  · intro j hj hbit x _
    rw [hsb] at hj hbit ⊢
    rw [getBitmap_eq_zero] at hbit
    have hz := ho.free_zero j hj hbit
    rw [Fs.vol_data (Nat.le_add_right _ _)] at hz
    exact congrFun hz x

theorem Good.blockOwnership (h : Good maxDnum s) : BlockOwnership s :=
  blockOwnership_of_owned h.mounted h.owned

end Ownership

/-- **Block ownership.** It holds of every file system that a run of any operations from
`rufs_mkfs` reaches, whether they succeed or fail. -/
theorem block_ownership {s : Fs} (h : Reachable system s) : BlockOwnership s :=
  (reachable_good h).blockOwnership

/-- A fresh file system, made at time `0` by user `0`. -/
def freshFs : Fs := (rufsMkfs ⟨0, 0, 0, 0⟩).1

theorem freshFs_init : system.init freshFs := ⟨_, rfl⟩

theorem block_ownership_fresh : BlockOwnership freshFs :=
  block_ownership (.start freshFs_init)

/-! ### The allocator -/

section NoSpace

variable {s s' : Fs} {path : List UInt8} {mode size offset : ℕ} {env : Env} {buffer : Bytes}

theorem getAvailBlkno_none {e : List Event} (h : getAvailBlkno s = (none, s', e)) :
    ∃ bitmap, .allocBlk bitmap none ∈ e := by
  unfold getAvailBlkno at h
  dsimp only at h
  split at h
  · exact absurd (congrArg Prod.fst h) (by simp)
  · obtain ⟨-, rfl⟩ : s = s' ∧ [Event.read s.sb.dBitmapBlk,
        .allocBlk (s.disk s.sb.dBitmapBlk) none] = e := by simpa using h
    exact ⟨_, List.mem_cons_of_mem _ (List.mem_singleton.mpr rfl)⟩

/-- The codes of the shared part are the caller's. -/
theorem newEntry_code {notDir noIno noEntry r : ℤ} {e : List Event}
    (h : newEntry notDir noIno noEntry s path env = (.error r, s', e)) :
    r = -eNoent ∨ r = notDir ∨ r = noIno ∨ r = noEntry := by
  unfold newEntry at h
  rcases hg : getNodeByPath s (dirname path) 0 with ⟨_ | parent, e₀⟩
  · rw [hg] at h
    exact .inl (Except.error.inj (congrArg Prod.fst h)).symm
  rw [hg] at h
  dsimp only at h
  split at h
  · exact .inr (.inl (Except.error.inj (congrArg Prod.fst h)).symm)
  rcases hi : getAvailIno s with ⟨_ | j, s₁, e₁⟩
  · rw [hi] at h
    exact .inr (.inr (.inl (Except.error.inj (congrArg Prod.fst h)).symm))
  rw [hi] at h
  dsimp only at h
  rcases ha : dirAdd s₁ parent j (basename path) env.addTime with ⟨_ | _, s₂, e₂⟩
  · rw [ha] at h
    exact .inr (.inr (.inr (Except.error.inj (congrArg Prod.fst h)).symm))
  · rw [ha] at h
    exact absurd (congrArg Prod.fst h) (by simp)

/-- `rufs_mkdir` returns `-ENOSPC` only when `get_avail_blkno` failed. -/
theorem rufsMkdir_noSpace (h : (rufsMkdir s path mode env).1 = -eNospc) :
    ∃ bitmap, .allocBlk bitmap none ∈ (rufsMkdir s path mode env).2.2 := by
  unfold rufsMkdir at h ⊢
  rcases hn : newEntry (-1) (-1) (-1) s path env with ⟨r | j, s₁, e₁⟩
  · rw [hn] at h
    have hr : r = -eNospc := h
    rcases newEntry_code hn with hc | hc | hc | hc <;> rw [hr] at hc <;> exact absurd hc (by decide)
  · rw [hn] at h
    dsimp only at h ⊢
    rcases hg : getAvailBlkno s₁ with ⟨_ | b, s₂, e₂⟩
    · obtain ⟨bitmap, hb⟩ := getAvailBlkno_none hg
      exact ⟨bitmap, List.mem_append_right _ hb⟩
    · rw [hg] at h
      have h0 : (0 : ℤ) = -eNospc := h
      exact absurd h0 (by decide)

theorem writeLoop_none {n i off w : ℕ} {file : Inode} {e : List Event}
    (h : writeLoop buffer size n i s file off w = (none, s', e)) :
    ∃ bitmap, .allocBlk bitmap none ∈ e := by
  -- on the blocks that remain; the first failure ends the loop
  induction n generalizing i s file off w e with
  | zero => exact absurd (congrArg Prod.fst h) (by simp [writeLoop])
  | succ n ih =>
    rw [writeLoop] at h
    split at h
    · rcases hb : ensureBlk s file i with ⟨_ | file', s₁, e₁⟩
      · rw [hb] at h
        obtain ⟨-, -, rfl⟩ : True ∧ s₁ = s' ∧ e₁ = e := by simpa using h
        -- `ensureBlk` fails only where it asks for a block
        unfold ensureBlk at hb
        split at hb
        · rcases hg : getAvailBlkno s with ⟨_ | b, s₂, e₂⟩
          · rw [hg] at hb
            obtain ⟨-, rfl⟩ : s₂ = s₁ ∧ e₂ = e₁ := by simpa using hb
            exact getAvailBlkno_none hg
          · rw [hg] at hb
            exact absurd hb (by simp)
        · exact absurd hb (by simp)
      · rw [hb] at h
        dsimp only at h
        generalize hs₂ : s₁.bioWrite _ _ = s₂ at h
        rcases hl : writeLoop buffer size n (i + 1) s₂ file' 0
          (w + toCopy off (size - w)) with ⟨x, s₃, e₃⟩
        rw [hl] at h
        obtain ⟨rfl, rfl, rfl⟩ : x = none ∧ s₃ = s' ∧
            e₁ ++ .read (file'.directPtr i) :: .write .data (file'.directPtr i) :: e₃ = e := by
          simpa using h
        obtain ⟨bitmap, hb⟩ := ih hl
        exact ⟨bitmap, List.mem_append_right _ (List.mem_cons_of_mem _ (List.mem_cons_of_mem _ hb))⟩
    · exact absurd (congrArg Prod.fst h) (by simp)

/-- `rufs_write` returns `-ENOSPC` only when `get_avail_blkno` failed. -/
theorem rufsWrite_noSpace {e : List Event}
    (h : rufsWrite s path buffer size offset env = some (-eNospc, s', e)) :
    ∃ bitmap, .allocBlk bitmap none ∈ e := by
  unfold rufsWrite at h
  rcases hg : getNodeByPath s path 0 with ⟨_ | file, e₀⟩
  -- the other exits return another code
  · rw [hg] at h
    have h' : -eNoent = -eNospc := congrArg Prod.fst (Option.some.inj h)
    exact absurd h' (by decide)
  rw [hg] at h
  dsimp only at h
  split at h
  · have h' : -eIsdir = -eNospc := congrArg Prod.fst (Option.some.inj h)
    exact absurd h' (by decide)
  split at h
  · exact absurd h (by simp)
  rcases hl : writeLoop buffer size (numPtrs - offset / blockSize % 2 ^ 32)
    (offset / blockSize % 2 ^ 32) s file (offset % blockSize) 0 with ⟨_ | ⟨n, w⟩, s₁, e₁⟩
  · rw [hl] at h
    obtain ⟨-, rfl⟩ : s₁ = s' ∧ e₀ ++ e₁ = e := by simpa using h
    obtain ⟨bitmap, hb⟩ := writeLoop_none hl
    exact ⟨bitmap, List.mem_append_right _ hb⟩
  · rw [hl] at h
    have h' : (w : ℤ) = -eNospc := congrArg Prod.fst (Option.some.inj h)
    have hneg : -eNospc < 0 := by decide
    omega

end NoSpace

/-- **Data blocks never run out.** In every run each call of `get_avail_blkno` returns a block
number, and the exits that report `-ENOSPC` for a missing block are not reached. -/
theorem blocks_never_run_out {cs : List Call} {s : Fs} (h : Run system cs s) : ∀ c ∈ cs,
    (∀ bitmap result, .allocBlk bitmap result ∈ c.events → ∃ blk, result = some blk) ∧
    (∀ path mode env, c.op = .mkdir path mode env → c.result ≠ .code (-eNospc)) ∧
    (∀ path buffer size offset env, c.op = .write path buffer size offset env →
      c.result ≠ .code (-eNospc)) := by
  refine h.history (I := fun cs _ => ∀ c ∈ cs,
    (∀ bitmap result, .allocBlk bitmap result ∈ c.events → ∃ blk, result = some blk) ∧
    (∀ path mode env, c.op = .mkdir path mode env → c.result ≠ .code (-eNospc)) ∧
    (∀ path buffer size offset env, c.op = .write path buffer size offset env →
      c.result ≠ .code (-eNospc))) (fun s _ c hc => absurd hc List.not_mem_nil) ?_
  intro cs s c s' hr hall hs c' hc'
  rcases List.mem_append.mp hc' with hc' | hc'
  · exact hall c' hc'
  obtain rfl := List.mem_singleton.mp hc'
  -- the calls of `get_avail_blkno` succeed by the invariant of the run
  have halloc : ∀ bitmap result, .allocBlk bitmap result ∈ c'.events →
      ∃ blk, result = some blk := fun bitmap result hm =>
    Option.isSome_iff_exists.mp ((apply_good_max (reachable_good ⟨cs, hr⟩) hs).2 _ hm)
  have hnone : ∀ bitmap, .allocBlk bitmap none ∉ c'.events := fun bitmap hm => by
    obtain ⟨blk, hblk⟩ := halloc bitmap none hm
    exact absurd hblk (by simp)
  refine ⟨halloc, ?_, ?_⟩
  · intro path mode env hop hres
    have hs' : apply s c'.op = some (c'.result, s', c'.events) := hs
    rw [hop, hres] at hs'
    obtain ⟨hcode, heq⟩ : (rufsMkdir s path.bytes mode.toNat env).1 = -eNospc ∧
        (rufsMkdir s path.bytes mode.toNat env).2 = (s', c'.events) := by simpa [apply] using hs'
    obtain ⟨bitmap, hb⟩ := rufsMkdir_noSpace hcode
    rw [heq] at hb
    exact hnone bitmap hb
  · intro path buffer size offset env hop hres
    have hs' : apply s c'.op = some (c'.result, s', c'.events) := hs
    rw [hop, hres] at hs'
    obtain ⟨⟨r, s₁, e₁⟩, hw, heq⟩ := Option.map_eq_some_iff.mp hs'
    obtain ⟨rfl, rfl, rfl⟩ : r = -eNospc ∧ s₁ = s' ∧ e₁ = c'.events := by simpa using heq
    obtain ⟨bitmap, hb⟩ := rufsWrite_noSpace hw
    exact hnone bitmap hb

/-- The path `/a`. -/
def pathA : CPath := ⟨[slash, 97], rfl, by decide, by decide⟩

/-- A first `mkdir("/a")` on a fresh file system. -/
def firstMkdir : Call where
  op := .mkdir pathA 0o755 ⟨0, 0, 0, 0⟩
  result := .code (rufsMkdir freshFs pathA.bytes 0o755 ⟨0, 0, 0, 0⟩).1
  events := (rufsMkdir freshFs pathA.bytes 0o755 ⟨0, 0, 0, 0⟩).2.2

theorem firstMkdir_run :
    Run system [firstMkdir] (rufsMkdir freshFs pathA.bytes 0o755 ⟨0, 0, 0, 0⟩).2.1 :=
  .step (.start freshFs_init) rfl

theorem blocks_never_run_out_first :
    (∀ bitmap result, .allocBlk bitmap result ∈ firstMkdir.events → ∃ blk, result = some blk) ∧
    (∀ path mode env, firstMkdir.op = .mkdir path mode env →
      firstMkdir.result ≠ .code (-eNospc)) ∧
    (∀ path buffer size offset env, firstMkdir.op = .write path buffer size offset env →
      firstMkdir.result ≠ .code (-eNospc)) :=
  blocks_never_run_out firstMkdir_run firstMkdir (List.mem_singleton.mpr rfl)

/-! ### The device -/

/-- The number of blocks of the image that `dev_init` creates. -/
abbrev deviceBlocks : ℕ := diskSize / blockSize

/-- The data blocks that lie on the device. -/
abbrev deviceDnum : ℕ := deviceBlocks - 67

/-- The access stays on the device. -/
def OnDevice : Event → Prop
  | .read blk => blk < deviceBlocks
  | .write _ blk => blk < deviceBlocks
  | .allocBlk _ _ => True

theorem EventOk.onDevice {e : Event} (h : EventOk deviceDnum e) : OnDevice e := by
  have hN : 67 + deviceDnum = deviceBlocks := by decide
  have h67 : 67 < deviceBlocks := by decide
  cases e with
  | read blk => exact lt_of_lt_of_eq h hN
  | write w blk =>
    cases w with
    | mkfs => exact absurd h id
    | getAvailIno =>
      have h' : blk = 1 := h
      exact (by omega : blk < deviceBlocks)
    | getAvailBlkno =>
      have h' : blk = 2 := h
      exact (by omega : blk < deviceBlocks)
    | writei => exact h.2.trans h67
    | data => exact lt_of_lt_of_eq h.2 hN
  | allocBlk _ _ => trivial

theorem rufsMkfs_onDevice (env : Env) : ∀ e ∈ (rufsMkfs env).2, OnDevice e := by
  have hev : (rufsMkfs env).2 = [.write .mkfs 0, .write .mkfs 1, .write .mkfs 2, .write .mkfs 67,
      .read 3, .write .writei 3] := rfl
  rw [hev]
  intro e he
  simp only [List.mem_cons, List.not_mem_nil, or_false] at he
  rcases he with rfl | rfl | rfl | rfl | rfl | rfl <;>
  · unfold OnDevice
    decide

/-- The runs in which every call of `get_avail_blkno` finds one of the first `deviceDnum` bits
clear. -/
def deviceSystem : System Fs Call := system.restrict fun _ c => FindsBelow deviceDnum c.events

/-- **Every block access stays on the device**, in the runs in which `get_avail_blkno` always
finds the bit of a block on the device clear. -/
theorem accesses_on_device {cs : List Call} {s : Fs} (h : Run deviceSystem cs s) :
    (∀ env, ∀ e ∈ (rufsMkfs env).2, OnDevice e) ∧ ∀ c ∈ cs, ∀ e ∈ c.events, OnDevice e := by
  have hgood : Good deviceDnum s ∧ ∀ c ∈ cs, ∀ e ∈ c.events, OnDevice e := by
    refine h.history (I := fun cs s => Good deviceDnum s ∧
      ∀ c ∈ cs, ∀ e ∈ c.events, OnDevice e) ?_ ?_
    · rintro s ⟨env, rfl⟩
      exact ⟨rufsMkfs_good (by decide) env, fun c hc => absurd hc List.not_mem_nil⟩
    · rintro cs s c s' _ ⟨hg, hall⟩ ⟨hs, hfind⟩
      obtain ⟨hg', hev⟩ := apply_good hg hs (.inr ⟨by decide, hfind⟩)
      refine ⟨hg', fun c' hc' => ?_⟩
      rcases List.mem_append.mp hc' with hc' | hc'
      · exact hall c' hc'
      · rw [List.mem_singleton.mp hc']
        exact fun e he => (hev e he).onDevice
  exact ⟨rufsMkfs_onDevice, hgood.2⟩

/-- The accesses of the first `mkdir`. -/
theorem firstMkdir_events : firstMkdir.events =
    [.read 3, .read 1, .write .getAvailIno 1, .read 3, .read 67, .read 67, .write .data 67,
      .read 3, .write .writei 3, .read 2, .write .getAvailBlkno 2,
      .allocBlk ((newEntry (-1) (-1) (-1) freshFs pathA.bytes ⟨0, 0, 0, 0⟩).2.1.disk 2) (some 68),
      .read 3, .write .writei 3] := rfl

theorem firstMkdir_findsBelow : FindsBelow deviceDnum firstMkdir.events := by
  intro bitmap result hm
  rw [firstMkdir_events] at hm
  simp only [List.mem_cons, Event.allocBlk.injEq, reduceCtorEq, List.not_mem_nil, or_false,
    false_or] at hm
  obtain ⟨rfl, -⟩ := hm
  refine ⟨1, by decide, ?_⟩
  rfl

theorem firstMkdir_deviceRun :
    Run deviceSystem [firstMkdir] (rufsMkdir freshFs pathA.bytes 0o755 ⟨0, 0, 0, 0⟩).2.1 := by
  have hstart : Run deviceSystem [] freshFs := .start freshFs_init
  exact hstart.step ⟨rfl, firstMkdir_findsBelow⟩

theorem accesses_on_device_first : (∀ env, ∀ e ∈ (rufsMkfs env).2, OnDevice e) ∧
    ∀ c ∈ [firstMkdir], ∀ e ∈ c.events, OnDevice e :=
  accesses_on_device firstMkdir_deviceRun

end Rufs
