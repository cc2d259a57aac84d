import Cs416.Rufs.CrashLog
import Cs416.Rufs.CrashVolume

/-!
# Where a call can be cut

`Cut Q s ws` says that `Q` holds of the file system wherever the log `ws` of a call on `s` is cut.
For `mkdir` and `create` the places are those of `MakeStage`, and only a call that returns `0`
gets past them: its last write is the new inode (`rufsMkdir_cut`, `rufsCreate_cut`). For `write`
they are those of `Tearing`: the inode on disk is the old one, and its blocks hold old and new bytes
(`rufsWrite_cut`).

Nothing is assumed about free space. After a kill a block or an inode may be lost, so an
allocation may fail anywhere.
-/

open ByteMem Scan WriteLog

namespace Rufs

/-- `Q` holds wherever the log is cut. -/
def Cut (Q : Fs → Prop) (s : Fs) (ws : Log) : Prop :=
  Always (fun d => Q { s with disk := d }) s.disk ws

section Cut

variable {Q Q' : Fs → Prop} {s : Fs} {b : ℕ} {blk : Block} {ws ws₁ ws₂ : Log}

theorem cut_nil : Cut Q s [] ↔ Q s := always_nil

theorem cut_cons : Cut Q s ((b, blk) :: ws) ↔ Q s ∧ Cut Q (s.bioWrite b blk) ws := always_cons

theorem cut_append : Cut Q s (ws₁ ++ ws₂) ↔ Cut Q s ws₁ ∧ Cut Q (s.replay ws₁) ws₂ :=
  always_append

theorem Cut.mono (hQ : ∀ s, Q s → Q' s) (h : Cut Q s ws) : Cut Q' s ws :=
  Always.mono (fun _ => hQ _) h

theorem Cut.finish (h : Cut Q s ws) : Q (s.replay ws) := Always.finish h

/-- A log of one write at most is cut before it or after it. -/
theorem cut_of_length_le (hlen : ws.length ≤ 1) (h₀ : Q s) (h₁ : Q (s.replay ws)) : Cut Q s ws := by
  cases ws with
  | nil => exact cut_nil.mpr h₀
  | cons w ws =>
    obtain rfl : ws = [] := List.eq_nil_of_length_eq_zero (by simpa using hlen)
    exact cut_cons.mpr ⟨h₀, cut_nil.mpr h₁⟩

theorem length_getAvailInoLog (s : Fs) : (getAvailInoLog s).length ≤ 1 := by
  unfold getAvailInoLog
  dsimp only
  cases firstIdx (fun i => getBitmap (s.disk s.sb.iBitmapBlk) i == 0) 0 s.sb.maxInum with
  | some i => exact le_rfl
  | none => exact Nat.zero_le 1

theorem length_getAvailBlknoLog (s : Fs) : (getAvailBlknoLog s).length ≤ 1 := by
  unfold getAvailBlknoLog
  dsimp only
  cases firstIdx (fun i => getBitmap (s.disk s.sb.dBitmapBlk) i == 0) 0 s.sb.maxDnum with
  | some i => exact le_rfl
  | none => exact Nat.zero_le 1

theorem length_writeiLog (s : Fs) (ino : ℕ) (n : Inode) : (writeiLog s ino n).length ≤ 1 := by
  unfold writeiLog
  split
  · exact Nat.zero_le 1
  · exact le_rfl

/-- `get_avail_ino` is cut before it or after it. -/
theorem cut_getAvailIno (h₀ : Q s) (h₁ : Q (getAvailIno s).2.1) : Cut Q s (getAvailInoLog s) := by
  refine cut_of_length_le (length_getAvailInoLog s) h₀ ?_
  rw [(logs_getAvailIno s).state]
  exact h₁

theorem cut_getAvailBlkno (h₀ : Q s) (h₁ : Q (getAvailBlkno s).2.1) :
    Cut Q s (getAvailBlknoLog s) := by
  refine cut_of_length_le (length_getAvailBlknoLog s) h₀ ?_
  rw [(logs_getAvailBlkno s).state]
  exact h₁

theorem cut_writei {ino : ℕ} {n : Inode} (h₀ : Q s) (h₁ : Q (writei s ino n).1) :
    Cut Q s (writeiLog s ino n) := by
  refine cut_of_length_le (length_writeiLog s ino n) h₀ ?_
  rw [(logs_writei s ino n).state]
  exact h₁

end Cut

/-! ### `dir_add` -/

section DirAdd

variable {s : Fs} {i f t : ℕ} {c : Name}

/-- An inode of a volume is stored as it is. -/
theorem Fs.vol_inode_norm (s : Fs) (i : ℕ) : (s.vol.inode i).norm = s.vol.inode i := by
  rcases lt_or_ge i maxInum with hi | hi
  · rw [vol_inode hi]
    funext x
    unfold Inode.norm window
    simp only [Nat.zero_add]
    split <;> rfl
  · rw [vol_inode_of_le hi]
    funext x
    unfold Inode.norm window zeroBlock
    split <;> rfl

theorem Fs.vol_setInode_self (s : Fs) (v : Vol) (i : ℕ) (hv : v.inode = s.vol.inode) :
    v.setInode i (s.vol.inode i) = v := by
  refine Vol.ext rfl rfl ?_ rfl
  rw [Vol.setInode_inode, s.vol_inode_norm, ← hv, Function.update_eq_self]

/-- The part of `dir_add` that takes a block. -/
theorem dirGrow_cut (hm : s.Mounted) (ho : Owned maxDnum s.vol) (hi : s.vol.Valid i)
    (hl : c.length ≤ nameMax) (hnew : s.vol.lookup i c = none) :
    Cut (fun s' => s'.Mounted ∧ AddStage s.vol i f c s'.vol) s
        (dirGrowLog s (s.vol.inode i) f c t) ∧
      ((dirGrow s (s.vol.inode i) f c t).1 = true →
        AddOutcome maxDnum s.vol i f c true (dirGrow s (s.vol.inode i) f c t).2.1.vol) := by
  have hlt := (ho.ibit_of_valid i hi).1
  have hblk := logs_getAvailBlkno s
  unfold dirGrowLog dirGrow
  rcases getAvailBlkno_cases hm with ⟨j, s₁, heq, hm₁, hjd, hbit, -, hvol⟩ | ⟨heq, -⟩
  · rw [heq] at hblk ⊢
    dsimp only at hblk ⊢
    have h₁ : s₁.Mounted ∧ AddStage s.vol i f c s₁.vol := ⟨hm₁, by rw [hvol]; exact .taken j hjd hbit⟩
    have hcut₁ : Cut (fun s' => s'.Mounted ∧ AddStage s.vol i f c s'.vol) s
        (getAvailBlknoLog s) := cut_getAvailBlkno ⟨hm, .same⟩ (by rw [heq]; exact h₁)
    rw [cut_append, hblk.state]
    cases hf : firstIdx (fun k => (s.vol.inode i).directPtr k == 0) 0 numPtrs with
    -- all pointers are set: the block is taken for nothing
    | none => exact ⟨⟨hcut₁, cut_nil.mpr h₁⟩, fun h => absurd h Bool.false_ne_true⟩
    | some m =>
      obtain ⟨-, hmlt, h0, -⟩ := firstIdx_eq_some.mp hf
      have hmlt' : m < numPtrs := by omega
      have h0' : s.vol.ptr i m = 0 := by simpa using h0
      have hatt := attached_setDirectPtr (s.vol.inode i) (b := 67 + j) hmlt'
        (by unfold maxDnum at hjd; omega)
      have hino : ((s.vol.inode i).setDirectPtr m (67 + j)).ino = i :=
        hatt.ino.trans (ho.ino_self i hi)
      dsimp only
      rw [hino, cut_cons]
      -- the entry is written before the directory points at its block
      have hm₂ : (s₁.bioWrite (67 + j) (setEntry zeroBlock 0 f c)).Mounted :=
        hm₁.bioWrite (by omega) _
      have hvol₂ : (s₁.bioWrite (67 + j) (setEntry zeroBlock 0 f c)).vol
          = (s.vol.markBlk j).setData (67 + j) (setEntry zeroBlock 0 f c) := by
        rw [Fs.vol_bioWrite_data _ (by omega), hvol]
      generalize s₁.bioWrite (67 + j) (setEntry zeroBlock 0 f c) = s₂ at hm₂ hvol₂ ⊢
      obtain ⟨s₃, hw, hm₃, hvol₃⟩ :=
        writei_eq hm₂ hlt (dirTouch ((s.vol.inode i).setDirectPtr m (67 + j)) t)
      have hout : AddOutcome maxDnum s.vol i f c true s₃.vol := by
        rw [hvol₃, hvol₂]
        exact .grown m j _ hl hnew hmlt' h0' hjd hjd hbit
          (hatt.trans_core hmlt' (sameCore_dirTouch _ _))
      refine ⟨⟨hcut₁, h₁, cut_writei ?_ ?_⟩, fun _ => ?_⟩
      · exact ⟨hm₂, by rw [hvol₂]; exact .filled j _ hjd hbit⟩
      · rw [hw]
        exact ⟨hm₃, .added _ hout⟩
      · rw [hw]
        exact hout
  -- no block is left
  · rw [heq] at hblk ⊢
    dsimp only at hblk ⊢
    rw [List.append_nil]
    exact ⟨cut_getAvailBlkno ⟨hm, .same⟩ (by rw [heq]; exact ⟨hm, .same⟩),
      fun h => absurd h Bool.false_ne_true⟩

/-- **Where `dir_add` can be cut.** -/
theorem dirAdd_cut (hm : s.Mounted) (ho : Owned maxDnum s.vol) (hi : s.vol.Valid i) :
    Cut (fun s' => s'.Mounted ∧ AddStage s.vol i f c s'.vol) s
        (dirAddLog s (s.vol.inode i) f c t) ∧
      ((dirAdd s (s.vol.inode i) f c t).1 = true →
        AddOutcome maxDnum s.vol i f c true (dirAdd s (s.vol.inode i) f c t).2.1.vol) := by
  have hlt := (ho.ibit_of_valid i hi).1
  have hsame : Cut (fun s' => s'.Mounted ∧ AddStage s.vol i f c s'.vol) s [] :=
    cut_nil.mpr ⟨hm, .same⟩
  unfold dirAddLog dirAdd
  rw [ho.ino_self i hi]
  by_cases hlong : c.length > nameMax
  · rw [if_pos hlong, if_pos hlong]
    exact ⟨hsame, fun h => absurd h Bool.false_ne_true⟩
  rw [if_neg hlong, if_neg hlong]
  have hl : c.length ≤ nameMax := not_lt.mp hlong
  have hfind := dirFind_eq hm ho hi c
  generalize dirFind s i c = res at hfind ⊢
  rcases res with ⟨_ | j, e⟩
  -- the name exists
  rotate_left
  · exact ⟨hsame, fun h => absurd h Bool.false_ne_true⟩
  have hnew : s.vol.lookup i c = none := hfind.symm
  have hscan : (scanEntries s (s.vol.inode i) entFree numPtrs 0).1 = _ :=
    scanEntries_eq (fun k hk hp => ho.ptr_ge hi hk hp) le_rfl
  rw [Nat.zero_mul] at hscan
  generalize scanEntries s (s.vol.inode i) entFree numPtrs 0 = res at hscan ⊢
  rcases res with ⟨_ | ⟨blk, j⟩, e₁⟩
  · exact dirGrow_cut hm ho hi hl hnew
  -- a free entry takes the name
  cases hf : firstIdx (s.vol.slot (s.vol.inode i) entFree) 0 (numPtrs * entsPerBlk) with
  | none =>
    rw [hf, Option.map_none] at hscan
    exact absurd hscan (by simp)
  | some k =>
    obtain ⟨-, hk, hslot, -⟩ := firstIdx_eq_some.mp hf
    have hk' : k < numEnts := by omega
    have hge := ho.ptr_ge hi (div_entsPerBlk_lt hk') (ptr_of_slot hslot)
    have hdata := Fs.vol_data hge s
    rw [hf, Option.map_some] at hscan
    obtain ⟨rfl, rfl⟩ := Prod.mk.inj (Option.some.inj hscan)
    have hptr : (s.vol.inode i).directPtr (k / entsPerBlk) = s.vol.ptr i (k / entsPerBlk) := rfl
    dsimp only
    rw [hptr, ← hdata, cut_cons]
    have hm₂ : (s.bioWrite (s.vol.ptr i (k / entsPerBlk))
        (setEntry (s.disk (s.vol.ptr i (k / entsPerBlk))) (k % entsPerBlk) f c)).Mounted :=
      hm.bioWrite (by omega) _
    have hvol₂ := Fs.vol_bioWrite_data s hge
      (setEntry (s.disk (s.vol.ptr i (k / entsPerBlk))) (k % entsPerBlk) f c)
    rw [← hdata] at hvol₂ hm₂
    generalize s.bioWrite (s.vol.ptr i (k / entsPerBlk))
      (setEntry (s.vol.data (s.vol.ptr i (k / entsPerBlk))) (k % entsPerBlk) f c) = s₂
        at hm₂ hvol₂ ⊢
    obtain ⟨s₃, hw, hm₃, hvol₃⟩ := writei_eq hm₂ hlt (dirTouch (s.vol.inode i) t)
    have hout : AddOutcome maxDnum s.vol i f c true s₃.vol := by
      rw [hvol₃, hvol₂]
      exact .reused k _ hl hnew hk' hslot (sameCore_dirTouch _ _)
    refine ⟨⟨⟨hm, .same⟩, cut_writei ?_ ?_⟩, fun _ => ?_⟩
    · -- with the entry alone the directory is the old one
      refine ⟨hm₂, .added _ ?_⟩
      rw [hvol₂, ← Fs.vol_setInode_self s (s.vol.setData _ _) i rfl]
      exact .reused k _ hl hnew hk' hslot ⟨rfl, rfl, rfl, fun _ _ => rfl⟩
    · rw [hw]
      exact ⟨hm₃, .added _ hout⟩
    · rw [hw]
      exact hout

end DirAdd

/-! ### `mkdir` and `create` -/

section Make

variable {s : Fs} {path : CPath} {env : Env} {mode : ℕ}

/-- The cut is one that `mkdir` or `create` on `s` leaves before its last write. -/
def MakeCut (s : Fs) (path : CPath) (s' : Fs) : Prop :=
  s'.Mounted ∧ MakeStage s.vol (tokens (dirname path.bytes)) (basename path.bytes) s'.vol

theorem newEntry_cut (hm : s.Mounted) (h : Sound s.vol) (path : CPath) (env : Env)
    {notDir noIno noEntry : ℤ} (h₁ : notDir < 0) (h₂ : noIno < 0) (h₃ : noEntry < 0) :
    Cut (MakeCut s path) s (newEntryLog s path.bytes env) ∧
      ∃ r s' e, newEntry notDir noIno noEntry s path.bytes env = (r, s', e) ∧
        ((∃ code < 0, r = .error code) ∨ ∃ i j, r = .ok j ∧ s'.Mounted ∧
          Entered maxDnum s.vol (tokens (dirname path.bytes)) (basename path.bytes) i j s'.vol) := by
  have hsame : Cut (MakeCut s path) s [] := cut_nil.mpr ⟨hm, .same⟩
  have hnode := (getNodeByPath_spec (N := maxDnum) hm h.owned h.rooted path.dirname_short).1
  unfold newEntryLog newEntry
  generalize getNodeByPath s (dirname path.bytes) 0 = res at hnode ⊢
  rcases res with ⟨_ | parent, e⟩
  · exact ⟨hsame, _, _, _, rfl, .inl ⟨_, by decide, rfl⟩⟩
  obtain ⟨i, hres, rfl⟩ := Option.map_eq_some_iff.mp hnode.symm
  dsimp only
  by_cases hd : (s.vol.inode i).isDir = false
  · rw [if_pos hd, if_pos hd]
    exact ⟨hsame, _, _, _, rfl, .inl ⟨_, h₁, rfl⟩⟩
  rw [if_neg hd, if_neg hd]
  have hd' : (s.vol.inode i).isDir = true := by simpa using hd
  have hv := Vol.resolve_valid h.rooted hres
  have hino := logs_getAvailIno s
  rcases getAvailIno_cases hm with ⟨j, s₁, hj, hm₁, hjlt, hbit, hvol₁⟩ | ⟨hj, hall⟩
  · have hcut : Cut (MakeCut s path) s (getAvailInoLog s) := by
      refine cut_getAvailIno ⟨hm, .same⟩ ?_
      rw [hj]
      exact ⟨hm₁, .adding i j _ hres hd' hjlt hbit (by rw [hvol₁]; exact .same)⟩
    rw [hj] at hino ⊢
    dsimp only at hino ⊢
    rw [cut_append, hino.state]
    have hinode : s.vol.inode i = s₁.vol.inode i := by rw [hvol₁, Vol.markIno_inode]
    have hv₁ : s₁.vol.Valid i := by rwa [Vol.Valid, ← hinode]
    have ho₁ : Owned maxDnum s₁.vol := by rw [hvol₁]; exact h.owned.markIno j
    obtain ⟨hcut₁, hadd⟩ := dirAdd_cut (f := j) (t := env.addTime) (c := basename path.bytes)
      hm₁ ho₁ hv₁
    rw [hinode]
    -- the cuts of `dir_add` are cuts of the call
    have hcut₂ : Cut (MakeCut s path) s₁
        (dirAddLog s₁ (s₁.vol.inode i) j (basename path.bytes) env.addTime) := by
      refine hcut₁.mono fun s' hs' => ⟨hs'.1, .adding i j _ hres hd' hjlt hbit ?_⟩
      rw [← hvol₁]
      exact hs'.2
    have hfinish := hcut₁.finish
    rw [(logs_dirAdd _ _ _ _ _).state] at hfinish
    generalize dirAdd s₁ (s₁.vol.inode i) j (basename path.bytes) env.addTime = res at hadd hfinish ⊢
    rcases res with ⟨_ | _, s₂, e₂⟩
    · exact ⟨⟨hcut, hcut₂⟩, _, _, _, rfl, .inl ⟨_, h₃, rfl⟩⟩
    · refine ⟨⟨hcut, hcut₂⟩, _, _, _, rfl, .inr ⟨i, j, rfl, hfinish.1, hres, hd', hjlt, hbit, ?_⟩⟩
      rw [← hvol₁]
      exact hadd rfl
  · rw [hj] at hino ⊢
    dsimp only at hino ⊢
    rw [List.append_nil]
    refine ⟨cut_getAvailIno ⟨hm, .same⟩ ?_, _, _, _, rfl, .inl ⟨_, h₂, rfl⟩⟩
    rw [hj]
    exact ⟨hm, .same⟩

/-- A call of `mkdir` or `create` with the log `ws` that returns `r` and leaves `s'`: it is cut as
`MakeCut` says, up to its end when it fails, or else up to its last write. -/
def MakeCuts (s : Fs) (kind : Kind) (path : CPath) (mode : ℕ) (ws : Log) (r : ℤ) (s' : Fs) : Prop :=
  (r < 0 ∧ Cut (MakeCut s path) s ws) ∨
  (r = 0 ∧ (∃ ws' w, ws = ws' ++ [w] ∧ Cut (MakeCut s path) s ws') ∧ s'.Mounted ∧
    MakeOutcome maxDnum s.vol kind mode (tokens (dirname path.bytes)) (basename path.bytes) true
      s'.vol)

theorem writeiLog_eq (hm : s.Mounted) {i : ℕ} (hi : i < maxInum) (n : Inode) :
    ∃ w, writeiLog s i n = [w] := by
  unfold writeiLog
  rw [hm.sb, if_neg (show ¬ i ≥ Superblock.fresh.maxInum from not_le.mpr hi)]
  exact ⟨_, rfl⟩

/-- **Where `rufs_mkdir` can be cut.** -/
theorem rufsMkdir_cut (hm : s.Mounted) (h : Sound s.vol) (hmode : mode < 2 ^ 32) :
    MakeCuts s .dir path mode (rufsMkdirLog s path.bytes mode env)
      (rufsMkdir s path.bytes mode env).1 (rufsMkdir s path.bytes mode env).2.1 := by
  have hneg : (-1 : ℤ) < 0 := by decide
  obtain ⟨hcut, r, s₁, e, hn, hr⟩ := newEntry_cut hm h path env hneg hneg hneg
  have hentry := logs_newEntry (-1) (-1) (-1) s path.bytes env
  rw [hn] at hentry
  unfold rufsMkdirLog rufsMkdir
  rw [hn]
  obtain ⟨code, hneg, rfl⟩ | ⟨i, j, rfl, hm₁, hent⟩ := hr
  · dsimp only
    rw [List.append_nil]
    exact .inl ⟨hneg, hcut⟩
  dsimp only at hentry ⊢
  have hblk := logs_getAvailBlkno s₁
  rcases getAvailBlkno_cases hm₁ with ⟨b, s₂, heq, hm₂, hbd, hbit, -, hvol₂⟩ | ⟨heq, -⟩
  · have hcut₁ : Cut (MakeCut s path) s₁ (getAvailBlknoLog s₁) := by
      refine cut_getAvailBlkno ?_ ?_
      · rw [← hentry.state]
        exact hcut.finish
      · rw [heq]
        exact ⟨hm₂, by rw [hvol₂]; exact .entered i j b _ hent hbd hbit⟩
    rw [heq] at hblk ⊢
    dsimp only
    -- the last write is the inode of the directory
    obtain ⟨w, hw⟩ := writeiLog_eq hm₂ hent.lt (dirInode j (67 + b) mode env)
    obtain ⟨s₃, hwi, hm₃, hvol₃⟩ := writei_eq hm₂ hent.lt (dirInode j (67 + b) mode env)
    rw [hw, hwi, ← List.append_assoc]
    refine .inr ⟨rfl, ⟨_, w, rfl, cut_append.mpr ⟨hcut, ?_⟩⟩, hm₃, ?_⟩
    · rw [hentry.state]
      exact hcut₁
    · rw [hvol₃, hvol₂]
      have hj := hent.lt
      unfold maxInum at hj
      unfold maxDnum at hbd
      exact .madeDir i j b _ s₁.vol rfl
        (.entered i j _ hent.parent hent.isDir hent.lt hent.free hent.added) hbd hbd hbit
        (isNew_dirInode (by omega) (by omega) (or_mode_lt (by decide) hmode))
  -- no block is left for it
  · have hcut₁ : Cut (MakeCut s path) s₁ (getAvailBlknoLog s₁) := by
      have hfin := hcut.finish
      rw [hentry.state] at hfin
      exact cut_getAvailBlkno hfin (by rw [heq]; exact hfin)
    rw [heq]
    dsimp only
    rw [List.append_nil]
    refine .inl ⟨by decide, cut_append.mpr ⟨hcut, ?_⟩⟩
    rw [hentry.state]
    exact hcut₁

/-- **Where `rufs_create` can be cut.** -/
theorem rufsCreate_cut (hm : s.Mounted) (h : Sound s.vol) (hmode : mode < 2 ^ 32) :
    MakeCuts s .file path mode (rufsCreateLog s path.bytes mode env)
      (rufsCreate s path.bytes mode env).1 (rufsCreate s path.bytes mode env).2.1 := by
  have hnotdir : -eNotdir < 0 := by decide
  have hnospc : -eNospc < 0 := by decide
  have hio : -eIo < 0 := by decide
  obtain ⟨hcut, r, s₁, e, hn, hr⟩ := newEntry_cut hm h path env hnotdir hnospc hio
  unfold rufsCreateLog rufsCreate
  rw [hn]
  obtain ⟨code, hneg, rfl⟩ | ⟨i, j, rfl, hm₁, hent⟩ := hr
  · dsimp only
    rw [List.append_nil]
    exact .inl ⟨hneg, hcut⟩
  dsimp only
  obtain ⟨w, hw⟩ := writeiLog_eq hm₁ hent.lt (fileInode j mode env)
  obtain ⟨s₂, hwi, hm₂, hvol₂⟩ := writei_eq hm₁ hent.lt (fileInode j mode env)
  rw [hw, hwi]
  refine .inr ⟨rfl, ⟨_, w, rfl, hcut⟩, hm₂, ?_⟩
  rw [hvol₂]
  have hj := hent.lt
  unfold maxInum at hj
  exact .madeFile i j _ s₁.vol rfl
    (.entered i j _ hent.parent hent.isDir hent.lt hent.free hent.added)
    (isNew_fileInode (by omega) (or_mode_lt (by decide) hmode))

end Make

/-! ### `write` -/

section Write

variable {s : Fs} {f pos size : ℕ} {buffer : Bytes} {v : Vol} {n : Inode}

/-- The cut is one that a `write` on the volume `v` leaves before its last write. -/
def WriteCut (f pos size : ℕ) (buffer : Bytes) (v : Vol) (s' : Fs) : Prop :=
  s'.Mounted ∧ ∃ n, Tearing f pos size buffer v n s'.vol

theorem ensureBlk_cut (hm : s.Mounted) (h : Tearing f pos size buffer v n s.vol) {i : ℕ}
    (hi : i < numPtrs) :
    Cut (WriteCut f pos size buffer v) s (ensureBlkLog s n i) ∧
      ∃ r s' e, ensureBlk s n i = (r, s', e) ∧ (r = none ∨ ∃ n', r = some n' ∧ s'.Mounted ∧
        Tearing f pos size buffer v n' s'.vol ∧ n'.directPtr i ≠ 0) := by
  have hsame : WriteCut f pos size buffer v s := ⟨hm, n, h⟩
  unfold ensureBlkLog ensureBlk
  by_cases h0 : n.directPtr i = 0
  · rw [if_pos h0, if_pos h0]
    rcases getAvailBlkno_cases hm with ⟨j, s₁, heq, hm₁, hj, hbit, -, hvol⟩ | ⟨heq, -⟩
    · have h₁ : Tearing f pos size buffer v (n.setDirectPtr i (67 + j)) s₁.vol := by
        rw [hvol]
        exact h.attach hi h0 hj hbit
      have hptr : (n.setDirectPtr i (67 + j)).directPtr i = 67 + j :=
        (attached_setDirectPtr n hi (by unfold maxDnum at hj; omega)).ptr_self
      refine ⟨cut_getAvailBlkno hsame ?_, ?_⟩
      · rw [heq]
        exact ⟨hm₁, _, h₁⟩
      · rw [heq]
        exact ⟨_, _, _, rfl, .inr ⟨_, rfl, hm₁, h₁, by omega⟩⟩
    · refine ⟨cut_getAvailBlkno hsame ?_, ?_⟩
      · rw [heq]
        exact hsame
      · rw [heq]
        exact ⟨_, _, _, rfl, .inl rfl⟩
  · rw [if_neg h0, if_neg h0]
    exact ⟨cut_nil.mpr hsame, _, _, _, rfl, .inr ⟨n, rfl, hm, h, h0⟩⟩

/-- A block that is filled is followed by the start of the next one. -/
theorem next_block {i off w : ℕ} (hoff : off ≤ blockSize) (hpos : i * blockSize + off = pos + w)
    (hlt : w + toCopy off (size - w) < size) :
    (i + 1) * blockSize = pos + (w + toCopy off (size - w)) := by
  have hlen : toCopy off (size - w) = blockSize - off := by
    unfold toCopy at hlt ⊢
    omega
  rw [hlen, Nat.add_mul, Nat.one_mul]
  omega

/-- The loop at block `i` with `w` bytes written, `k` blocks from the end of the inode. -/
theorem writeLoop_cut {k i off w : ℕ} (hm : s.Mounted) (h : Tearing f pos size buffer v n s.vol)
    (hi : 0 < k → i + k ≤ numPtrs) (hoff : off ≤ blockSize)
    (hpos : w < size → i * blockSize + off = pos + w) :
    Cut (WriteCut f pos size buffer v) s (writeLoopLog buffer size k i s n off w) ∧
      ∃ r s' e, writeLoop buffer size k i s n off w = (r, s', e) ∧ (r = none ∨
        ∃ n' w', r = some (n', w') ∧ s'.Mounted ∧ Tearing f pos size buffer v n' s'.vol) := by
  -- on the blocks that remain
  induction k generalizing i s n off w with
  | zero => exact ⟨cut_nil.mpr ⟨hm, n, h⟩, _, _, _, rfl, .inr ⟨n, w, rfl, hm, h⟩⟩
  | succ k ih =>
    have hlt : i < numPtrs := by
      have hle := hi (Nat.succ_pos k)
      omega
    have hrest : i + 1 + k ≤ numPtrs := by
      have hle := hi (Nat.succ_pos k)
      omega
    rw [writeLoopLog, writeLoop]
    by_cases hw : w < size
    swap
    · rw [if_neg hw, if_neg hw]
      exact ⟨cut_nil.mpr ⟨hm, n, h⟩, _, _, _, rfl, .inr ⟨n, w, rfl, hm, h⟩⟩
    rw [if_pos hw, if_pos hw]
    have hlog := logs_ensureBlk s n i
    obtain ⟨hcut, r, s₁, e, heq, hr⟩ := ensureBlk_cut hm h hlt
    rw [heq] at hlog ⊢
    obtain rfl | ⟨n₁, rfl, hm₁, h₁, hp⟩ := hr
    · dsimp only
      rw [List.append_nil]
      exact ⟨hcut, _, _, _, rfl, .inl rfl⟩
    dsimp only at hlog ⊢
    obtain ⟨j, -, hj, -⟩ := h₁.ptr_used hlt hp
    have hge : 67 ≤ n₁.directPtr i := by omega
    set len := toCopy off (size - w) with hlen
    have hlen₁ : w + len ≤ size := by
      unfold toCopy at hlen
      omega
    -- the block on disk is the one in the volume
    have hdata := Fs.vol_data hge s₁
    rw [cut_append, hlog.state, cut_cons, ← hdata]
    set blk := memcpy (s₁.vol.data (n₁.directPtr i)) off (fun k => buffer (w + k)) len with hblk
    have hm₂ : (s₁.bioWrite (n₁.directPtr i) blk).Mounted := hm₁.bioWrite (by omega) blk
    have h₂ : Tearing f pos size buffer v n₁ (s₁.bioWrite (n₁.directPtr i) blk).vol := by
      rw [Fs.vol_bioWrite_data s₁ hge, hblk]
      exact h₁.copy hlt hp (fun _ => hpos hw) hlen₁
    generalize s₁.bioWrite (n₁.directPtr i) blk = s₂ at hm₂ h₂ ⊢
    have hnext : w + len < size → (i + 1) * blockSize + 0 = pos + (w + len) := by
      rw [Nat.add_zero]
      exact next_block hoff (hpos hw)
    obtain ⟨hcut₂, r, s', e', heq', hr'⟩ := ih hm₂ h₂ (fun _ => hrest) (Nat.zero_le _) hnext
    rw [heq']
    exact ⟨⟨hcut, ⟨hm₁, _, h₁⟩, hcut₂⟩, _, _, _, rfl, hr'⟩

/-- A call of `write` with the log `ws` that returns `r` and leaves `s'`: it is cut as `WriteCut`
says, up to its end when no block is left, or else up to its last write. -/
def WriteCuts (s : Fs) (f pos size : ℕ) (buffer : Bytes) (ws : Log) (r : ℤ) (s' : Fs) : Prop :=
  (r < 0 ∧ Cut (WriteCut f pos size buffer s.vol) s ws) ∨
  (0 ≤ r ∧ (∃ ws' w, ws = ws' ++ [w] ∧ Cut (WriteCut f pos size buffer s.vol) s ws') ∧
    s'.Mounted ∧ ∃ n n' v', Tearing f pos size buffer s.vol n v' ∧ n.SameCore n' ∧
      s'.vol = v'.setInode f n')

/-- **Where `rufs_write` can be cut.** -/
theorem rufsWrite_cut (hm : s.Mounted) (h : Sound s.vol) {path : CPath} {offset : ℕ} {env : Env}
    {r : ℤ} {s' : Fs} {e : List Event}
    (hw : rufsWrite s path.bytes buffer size offset env = some (r, s', e)) :
    (r < 0 ∧ s' = s ∧ rufsWriteLog s path.bytes buffer size offset env = []) ∨
    ∃ f, s.vol.resolve (tokens path.bytes) = some f ∧ (s.vol.inode f).isReg = true ∧
      WriteCuts s f (writePos offset) size buffer
        (rufsWriteLog s path.bytes buffer size offset env) r s' := by
  have hnode := (getNodeByPath_spec (N := maxDnum) hm h.owned h.rooted path.short).1
  unfold rufsWrite at hw
  unfold rufsWriteLog
  generalize getNodeByPath s path.bytes 0 = res at hnode hw ⊢
  rcases res with ⟨_ | file, e₀⟩
  · obtain ⟨rfl, rfl, -⟩ : -eNoent = r ∧ s = s' ∧ e₀ = e := by simpa using hw
    exact .inl ⟨by decide, rfl, rfl⟩
  obtain ⟨f, hres, rfl⟩ := Option.map_eq_some_iff.mp hnode.symm
  dsimp only at hw ⊢
  by_cases hreg : (s.vol.inode f).isReg = false
  · rw [if_pos hreg] at hw ⊢
    obtain ⟨rfl, rfl, -⟩ : -eIsdir = r ∧ s = s' ∧ e₀ = e := by simpa using hw
    exact .inl ⟨by decide, rfl, rfl⟩
  rw [if_neg hreg] at hw ⊢
  have hreg' : (s.vol.inode f).isReg = true := by simpa using hreg
  refine .inr ⟨f, hres, hreg', ?_⟩
  by_cases hub : offset / blockSize % 2 ^ 32 ≥ 2 ^ 31 ∧ 0 < size
  · rw [if_pos hub] at hw
    exact absurd hw (by simp)
  rw [if_neg hub] at hw ⊢
  have hstart := Tearing.start (writePos offset) size buffer h
    (Vol.resolve_valid h.rooted hres) hreg'
  have hpos : offset / blockSize % 2 ^ 32 * blockSize + offset % blockSize
      = writePos offset + 0 := by rw [Nat.add_zero, writePos]
  obtain ⟨hcut, res, s₁, e₁, heq, hres₁⟩ :=
    writeLoop_cut (k := numPtrs - offset / blockSize % 2 ^ 32) hm hstart
      (fun hk => by omega) (Nat.mod_lt offset (by decide)).le fun _ => hpos
  have hlog := logs_writeLoop buffer size (numPtrs - offset / blockSize % 2 ^ 32)
    (offset / blockSize % 2 ^ 32) s (s.vol.inode f) (offset % blockSize) 0
  rw [heq] at hw hlog ⊢
  obtain rfl | ⟨n, w, rfl, hm₁, h₁⟩ := hres₁
  · obtain ⟨rfl, -⟩ : -eNospc = r ∧ _ := by simpa using hw
    dsimp only
    rw [List.append_nil]
    exact .inl ⟨by decide, hcut⟩
  · dsimp only at hw hlog ⊢
    have hino : n.ino = f := h₁.meta_.ino.trans (h.owned.ino_self f h₁.valid)
    rw [hino] at hw ⊢
    -- the last write is the inode of the file
    obtain ⟨s₂, hwi, hm₂, hvol₂⟩ := writei_eq hm₁ h₁.lt (writeTouch n (offset + w) env.now)
    obtain ⟨x, hx⟩ := writeiLog_eq hm₁ h₁.lt (writeTouch n (offset + w) env.now)
    rw [hwi] at hw
    obtain ⟨rfl, rfl, -⟩ : (w : ℤ) = r ∧ s₂ = s' ∧ _ := by simpa using hw
    rw [hx]
    exact .inr ⟨Int.natCast_nonneg w, ⟨_, x, rfl, hcut⟩, hm₂, n, _, s₁.vol, h₁,
      sameCore_writeTouch n _ _, hvol₂⟩

end Write

end Rufs
