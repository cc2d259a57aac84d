import Cs416.Rufs.ReadWrite

/-!
# Runs of the file system

`Good N` collects what holds of every file system a run reaches: it is mounted, its blocks
have owners among the first `N`, the root is a directory, the ledger balances and a regular
file has one size. `apply_good` is the step lemma, for any operation; the results about whole
runs follow by induction.
-/

open ByteMem Scan Lts

namespace Rufs

/-- **The invariant of a file system.** -/
structure Good (N : ℕ) (s : Fs) : Prop where
  mounted : s.Mounted
  owned : Owned N s.vol
  rooted : s.vol.Rooted
  charged : Charged s.vol 0
  sizes : ∀ i, s.vol.Valid i → (s.vol.inode i).isReg = true →
    (s.vol.inode i).stSize = (s.vol.inode i).size

/-! ### A new file system -/

/-- A volume with nothing on it. -/
def blankVol : Vol where
  ibit _ := false
  dbit _ := false
  inode _ := zeroBlock
  data _ := zeroBlock

theorem blank_invalid (i : ℕ) : ¬ blankVol.Valid i := not_not.mpr (loadLe_zero 2 2)

theorem bit_zeroBlock : bit zeroBlock = fun _ => false := by
  funext i
  unfold bit zeroBlock
  simp

theorem owned_blank (N : ℕ) : Owned N blankVol where
  ibit_of_valid i h := absurd h (blank_invalid i)
  ino_self i h := absurd h (blank_invalid i)
  ptr_used i _ h := absurd h (blank_invalid i)
  ptr_inj i _ _ _ h := absurd h (blank_invalid i)
  free_zero _ _ _ := rfl

theorem charged_blank : Charged blankVol 0 := by
  have hclear : clearCount blankVol.dbit maxDnum = maxDnum := clearCount_of_clear fun _ => rfl
  unfold Charged
  rw [hclear, Nat.add_zero]
  exact Nat.le_add_left _ _

/-- The volume `rufs_mkfs` makes. -/
theorem rufsMkfs_spec (env : Env) : (rufsMkfs env).1.Mounted ∧
    (rufsMkfs env).1.vol = ((blankVol.markIno 0).markBlk 0).setInode 0 (rootInode env) := by
  have hdisk0 : ∀ b, b ≠ 0 → ({ disk := fun _ => zeroBlock, sb := .fresh : Fs }.bioWrite 0
      Superblock.fresh.encode).disk b = zeroBlock := fun b hb => Fs.bioWrite_of_ne _ hb _
  have hm₀ : ({ disk := fun _ => zeroBlock, sb := .fresh : Fs }.bioWrite 0
      Superblock.fresh.encode).Mounted := by
    refine ⟨rfl, ?_⟩
    rw [Fs.bioWrite_self]
    exact Superblock.decode_encode_fresh
  have hvol₀ : ({ disk := fun _ => zeroBlock, sb := .fresh : Fs }.bioWrite 0
      Superblock.fresh.encode).vol = blankVol := by
    refine Vol.ext ?_ ?_ ?_ ?_
    · rw [Fs.vol_ibit, hdisk0 1 (by decide)]
      exact bit_zeroBlock
    · rw [Fs.vol_dbit, hdisk0 2 (by decide)]
      exact bit_zeroBlock
    · funext i
      rcases lt_or_ge i maxInum with hi | hi
      · rw [Fs.vol_inode hi, hdisk0 _ (by have := le_inodeBlk i; omega)]
        funext x
        unfold window
        split <;> rfl
      · rw [Fs.vol_inode_of_le hi]
        rfl
    · funext b
      rcases lt_or_ge b 67 with hb | hb
      · rw [Fs.vol_data_of_lt hb]
        rfl
      · rw [Fs.vol_data hb, hdisk0 b (by omega)]
        rfl
  generalize hs₀ : ({ disk := fun _ => zeroBlock, sb := .fresh : Fs }.bioWrite 0
    Superblock.fresh.encode) = s₀ at hdisk0 hm₀ hvol₀
  -- the bitmaps are written on zeroed blocks
  have hm₁ : (s₀.bioWrite 1 (setBitmap zeroBlock 0)).Mounted := hm₀.bioWrite (by decide) _
  have hvol₁ : (s₀.bioWrite 1 (setBitmap zeroBlock 0)).vol = blankVol.markIno 0 := by
    rw [← hvol₀, ← Fs.vol_bioWrite_ibitmap, hdisk0 1 (by decide)]
  have hdisk₁ : (s₀.bioWrite 1 (setBitmap zeroBlock 0)).disk 2 = zeroBlock := by
    rw [Fs.bioWrite_of_ne _ (by decide), hdisk0 2 (by decide)]
  generalize hs₁ : s₀.bioWrite 1 (setBitmap zeroBlock 0) = s₁ at hm₁ hvol₁ hdisk₁
  have hm₂ : (s₁.bioWrite 2 (setBitmap zeroBlock 0)).Mounted := hm₁.bioWrite (by decide) _
  have hvol₂ : (s₁.bioWrite 2 (setBitmap zeroBlock 0)).vol = (blankVol.markIno 0).markBlk 0 := by
    rw [← hvol₁, ← Fs.vol_bioWrite_dbitmap, hdisk₁]
  generalize hs₂ : s₁.bioWrite 2 (setBitmap zeroBlock 0) = s₂ at hm₂ hvol₂
  have hm₃ : (s₂.bioWrite 67 zeroBlock).Mounted := hm₂.bioWrite (by decide) _
  have hvol₃ : (s₂.bioWrite 67 zeroBlock).vol = (blankVol.markIno 0).markBlk 0 := by
    rw [Fs.vol_bioWrite_data _ le_rfl, hvol₂]
    exact Vol.ext rfl rfl rfl (Function.update_eq_self 67 blankVol.data)
  obtain ⟨s₄, hw, hm₄, hvol₄⟩ := writei_eq hm₃ (i := 0) (by decide) (rootInode env)
  have hmk : (rufsMkfs env).1 = s₄ := by
    have hw' := congrArg Prod.fst hw
    rw [← hs₂, ← hs₁, ← hs₀] at hw'
    exact hw'
  rw [hmk]
  exact ⟨hm₄, by rw [hvol₄, hvol₃]⟩

theorem isNew_rootInode (env : Env) : IsNew 0 (sIfdir ||| 0o755) 67 (rootInode env) :=
  isNew_dirInode (by decide) (by decide) (by decide)

/-- **A new file system is good.** -/
theorem rufsMkfs_good {N : ℕ} (hN : 0 < N) (env : Env) : Good N (rufsMkfs env).1 := by
  obtain ⟨hm, hvol⟩ := rufsMkfs_spec env
  -- the root has inode `0` and data block `0`
  have hroot := isNew_rootInode env
  have hself : (((blankVol.markIno 0).markBlk 0).setInode 0 (rootInode env)).inode 0
      = (rootInode env).norm := Vol.setInode_self _ _ _
  refine ⟨hm, ?_, ?_, ?_, ?_⟩ <;> rw [hvol]
  · have hbit : (blankVol.markIno 0).ibit 0 = true := by
      rw [Vol.markIno_ibit, Function.update_self]
    exact ((owned_blank N).markIno 0).newDir (by decide) hbit hN rfl hroot
  · refine ⟨?_, ?_⟩
    · rw [Vol.Valid, hself, hroot.norm.valid]
      decide
    · rw [hself, Inode.isDir, hroot.norm.stMode]
      decide
  -- the root's block is paid for by its inode
  · have hc₀ : Charged (blankVol.markIno 0) 1 :=
      charged_blank.markIno (by decide) rfl (blank_invalid 0)
    have hc : Charged ((blankVol.markIno 0).setInode 0 (rootInode env)) (0 + nptrs (rootInode env)) :=
      hc₀.newInode (by decide) (blank_invalid 0) hroot.valid_ne
    rw [nptrs_eq_one (by rw [hroot.ptr_zero]; decide) hroot.ptr_succ] at hc
    exact hc.markBlk (by decide) rfl
  -- there is no other inode
  · intro i hi hreg
    by_cases h0 : i = 0
    · rw [h0, hself, Inode.isReg, hroot.norm.stMode] at hreg
      exact absurd hreg (by decide)
    · rw [Vol.Valid, Vol.setInode_of_ne _ h0] at hi
      exact absurd hi (blank_invalid i)

/-! ### One call -/

section Step

variable {N : ℕ} {s s' : Fs} {v v' : Vol}

/-- A directory is not a regular file. -/
theorem Inode.isReg_of_isDir {n : Inode} (h : n.isDir = true) : n.isReg = false := by
  unfold Inode.isDir at h
  unfold Inode.isReg
  rw [beq_iff_eq] at h
  rw [h]
  decide

/-- Making a file or a directory keeps the sizes of regular files. -/
theorem MakeOutcome.sizes {kind : Kind} {mode : ℕ} {P : List Name} {c : Name} {ok : Bool}
    (h : MakeOutcome N v kind mode P c ok v')
    (hs : ∀ i, v.Valid i → (v.inode i).isReg = true → (v.inode i).stSize = (v.inode i).size)
    (i : ℕ) (hi : v'.Valid i) (hreg : (v'.inode i).isReg = true) :
    (v'.inode i).stSize = (v'.inode i).size := by
  -- on success: the parent is a directory and the new inode has no data
  have hmade : ∀ {d j : ℕ} {n : Inode} {v₁ v₂ : Vol} {m b : ℕ}, v₁.inode = v₂.inode →
      Entered N v P c d j v₂ → IsNew j m b n → (v₁.setInode j n).Valid i →
      ((v₁.setInode j n).inode i).isReg = true →
      ((v₁.setInode j n).inode i).stSize = ((v₁.setInode j n).inode i).size := by
    intro d j n v₁ v₂ m b heq hent hn hi hreg
    by_cases hij : i = j
    · rw [hij, Vol.setInode_self, hn.norm.stSize, hn.norm.size]
    · rw [Vol.Valid, Vol.setInode_of_ne _ hij, heq] at hi
      rw [Vol.setInode_of_ne _ hij, heq] at hreg ⊢
      have hid : i ≠ d := by
        rintro rfl
        rw [Inode.isReg_of_isDir ((hent.added.isDir i).trans hent.isDir)] at hreg
        exact absurd hreg (by decide)
      have hsame : v₂.inode i = v.inode i := hent.added.inode_of_ne hid
      rw [hsame] at hi hreg ⊢
      exact hs i hi hreg
  cases h with
  | failed _ hout =>
    rw [Vol.Valid, hout.failed_unchanged.1] at hi
    rw [hout.failed_unchanged.1] at hreg ⊢
    exact hs i hi hreg
  | madeDir d j b n v₁ _ hout _ _ _ hn =>
    exact hmade (v₁.markBlk_inode b) hout.entered' hn hi hreg
  | madeFile d j n v₁ _ hout hn => exact hmade rfl hout.entered' hn hi hreg

theorem Written.sizes {f pos len endPos now : ℕ} {src : Bytes}
    (h : Written N v f pos len endPos now src v')
    (hs : ∀ i, v.Valid i → (v.inode i).isReg = true → (v.inode i).stSize = (v.inode i).size)
    (i : ℕ) (hi : v'.Valid i) (hreg : (v'.inode i).isReg = true) :
    (v'.inode i).stSize = (v'.inode i).size := by
  have hi' := (h.valid_iff i).mp hi
  have hreg' : (v.inode i).isReg = true := by
    rw [← hreg, Inode.isReg, Inode.isReg, h.stMode]
  by_cases hif : i = f
  · subst hif
    rw [h.size.1, h.size.2, hs i hi' hreg']
  · rw [h.inode_of_ne hif]
    exact hs i hi' hreg'

/-- What a read-only operation does with the result of the path lookup. -/
theorem Good.lookup (h : Good N s) (path : CPath) :
    (getNodeByPath s path.bytes 0).1
        = (s.vol.resolve (tokens path.bytes)).map s.vol.inode ∧
      EventsOk N (getNodeByPath s path.bytes 0).2 :=
  getNodeByPath_spec h.mounted h.owned h.rooted path.short

/-- The inode a path names is one of the table. -/
theorem Good.exists_ino (h : Good N s) {path : CPath} {n : Inode} {e : List Event}
    (hg : getNodeByPath s path.bytes 0 = (some n, e)) :
    ∃ i, s.vol.Valid i ∧ s.vol.inode i = n ∧ s.vol.resolve (tokens path.bytes) = some i := by
  have hnode := (h.lookup path).1
  rw [hg] at hnode
  obtain ⟨i, hres, hi⟩ := Option.map_eq_some_iff.mp hnode.symm
  exact ⟨i, Vol.resolve_valid h.rooted hres, hi, hres⟩

theorem readdirFrom_events {dir : Inode}
    (hp : ∀ k < numPtrs, dir.directPtr k ≠ 0 → dir.directPtr k < 67 + N) (n i : ℕ)
    (hn : i + n ≤ numPtrs) : EventsOk N (readdirFrom s dir n i).2 := by
  induction n generalizing i with
  | zero => exact eventsOk_nil
  | succ n ih =>
    rw [readdirFrom]
    split
    · exact ih _ (by omega)
    · next h0 => exact eventsOk_cons.mpr ⟨hp i (by omega) h0, ih _ (by omega)⟩

theorem rufsReaddir_events (h : Good N s) (path : CPath) :
    EventsOk N (rufsReaddir s path.bytes).2 := by
  have hev := (h.lookup path).2
  unfold rufsReaddir
  rcases hg : getNodeByPath s path.bytes 0 with ⟨_ | n, e⟩
  · rwa [hg] at hev
  · rw [hg] at hev
    obtain ⟨i, hi, rfl, -⟩ := h.exists_ino hg
    dsimp only
    split
    · exact hev
    · refine eventsOk_append.mpr ⟨hev, readdirFrom_events (fun k hk hp => ?_) _ _ le_rfl⟩
      exact h.owned.ptr_lt hi hk hp

theorem rufsRead_events (h : Good N s) (path : CPath) (buffer : Bytes) (size offset : ℕ) :
    EventsOk N (rufsRead s path.bytes buffer size offset).2 := by
  have hev := (h.lookup path).2
  unfold rufsRead
  rcases hg : getNodeByPath s path.bytes 0 with ⟨_ | n, e⟩
  · rwa [hg] at hev
  · rw [hg] at hev
    obtain ⟨i, hi, rfl, -⟩ := h.exists_ino hg
    dsimp only
    split
    · exact hev
    split
    · exact hev
    refine eventsOk_append.mpr ⟨hev, ?_⟩
    rcases le_or_gt (offset / blockSize) numPtrs with hle | hgt
    · exact readLoop_events (fun k hk hp => h.owned.ptr_lt hi hk hp) _ _ _ _ _ (by omega)
    · rw [Nat.sub_eq_zero_of_le hgt.le]
      exact eventsOk_nil

theorem uint32_lt (mode : UInt32) : mode.toNat < 2 ^ 32 := mode.toNat_lt

/-- **The step lemma**: a call whose allocations find a block among the first `N` keeps the
invariant and stays within its bounds. -/
theorem apply_good (h : Good N s) {op : Op} {r : Result} {e : List Event}
    (hs : apply s op = some (r, s', e)) (had : Admits N e) : Good N s' ∧ EventsOk N e := by
  -- `mkdir` and `create` keep the invariant by what they have made
  have hmake : ∀ {kind mode P c ok} {s' : Fs}, s'.Mounted →
      MakeOutcome N s.vol kind mode P c ok s'.vol → Good N s' := fun hm hout => by
    obtain ⟨ho, hr, hc⟩ := hout.keeps h.owned h.rooted h.charged
    exact ⟨hm, ho, hr, hc, hout.sizes h.sizes⟩
  cases op with
  -- the operations that read leave the state alone
  | getattr path =>
    obtain ⟨-, rfl, rfl⟩ : _ ∧ s = s' ∧ (rufsGetattr s path.bytes).2 = e := by simpa [apply] using hs
    refine ⟨h, ?_⟩
    have hev := (h.lookup path).2
    unfold rufsGetattr
    rcases hg : getNodeByPath s path.bytes 0 with ⟨_ | n, e⟩ <;>
    · rw [hg] at hev
      exact hev
  | opendir path =>
    obtain ⟨-, rfl, rfl⟩ : _ ∧ s = s' ∧ (rufsOpendir s path.bytes).2 = e := by simpa [apply] using hs
    refine ⟨h, ?_⟩
    have hev := (h.lookup path).2
    unfold rufsOpendir
    rcases hg : getNodeByPath s path.bytes 0 with ⟨_ | n, e⟩ <;>
    · rw [hg] at hev
      exact hev
  | readdir path =>
    obtain ⟨-, rfl, rfl⟩ : _ ∧ s = s' ∧ (rufsReaddir s path.bytes).2 = e := by simpa [apply] using hs
    exact ⟨h, rufsReaddir_events h path⟩
  | mkdir path mode env =>
    obtain ⟨-, heq⟩ : _ ∧ (rufsMkdir s path.bytes mode.toNat env).2 = (s', e) := by
      simpa [apply] using hs
    have had' : Admits N (rufsMkdir s path.bytes mode.toNat env).2.2 := by rwa [heq]
    obtain ⟨r', s₁, e₁, ok, hmk, hm, hev, -, hout⟩ :=
      rufsMkdir_spec h.mounted h.owned h.rooted h.charged (uint32_lt mode) had'
    rw [hmk] at heq
    obtain ⟨rfl, rfl⟩ := Prod.mk.inj heq
    exact ⟨hmake hm hout, hev⟩
  | create path mode env =>
    obtain ⟨-, heq⟩ : _ ∧ (rufsCreate s path.bytes mode.toNat env).2 = (s', e) := by
      simpa [apply] using hs
    have had' : Admits N (rufsCreate s path.bytes mode.toNat env).2.2 := by rwa [heq]
    obtain ⟨r', s₁, e₁, ok, hmk, hm, hev, -, hout⟩ :=
      rufsCreate_spec h.mounted h.owned h.rooted h.charged (uint32_lt mode) had'
    rw [hmk] at heq
    obtain ⟨rfl, rfl⟩ := Prod.mk.inj heq
    exact ⟨hmake hm hout, hev⟩
  | «open» path =>
    obtain ⟨-, rfl, rfl⟩ : _ ∧ s = s' ∧ (rufsOpen s path.bytes).2 = e := by simpa [apply] using hs
    refine ⟨h, ?_⟩
    have hev := (h.lookup path).2
    unfold rufsOpen
    rcases hg : getNodeByPath s path.bytes 0 with ⟨_ | n, e⟩ <;>
    · rw [hg] at hev
      exact hev
  | read path buffer size offset =>
    obtain ⟨-, rfl, rfl⟩ : _ ∧ s = s' ∧
        (rufsRead s path.bytes buffer size.toNat offset.toNat).2 = e := by simpa [apply] using hs
    exact ⟨h, rufsRead_events h path buffer _ _⟩
  | write path buffer size offset env =>
    obtain ⟨⟨r', s₁, e₁⟩, hw, heq⟩ := Option.map_eq_some_iff.mp hs
    obtain ⟨-, rfl, rfl⟩ : _ ∧ s₁ = s' ∧ e₁ = e := by simpa using heq
    obtain ⟨hm, hev, ⟨rfl, -, -⟩ | ⟨f, len, -, -, -, -, hwr⟩⟩ :=
      rufsWrite_spec h.mounted h.owned h.rooted h.charged hw had
    · exact ⟨h, hev⟩
    · obtain ⟨ho, hc⟩ := hwr.keeps
      exact ⟨⟨hm, ho, hwr.rooted h.rooted, hc, hwr.sizes h.sizes⟩, hev⟩

/-- Without a condition, for the whole data region. -/
theorem apply_good_max (h : Good maxDnum s) {op : Op} {r : Result} {e : List Event}
    (hs : apply s op = some (r, s', e)) : Good maxDnum s' ∧ EventsOk maxDnum e :=
  apply_good h hs (.inl rfl)

end Step

/-! ### Whole runs -/

/-- **Every file system a run reaches is good.** -/
theorem reachable_good {s : Fs} (h : Reachable system s) : Good maxDnum s := by
  refine h.invariant ?_ ?_
  · rintro s ⟨env, rfl⟩
    exact rufsMkfs_good (by decide) env
  · intro s c s' hg hs
    exact (apply_good_max hg hs).1

/-- Every block access of a run respects the regions. -/
theorem run_eventsOk {cs : List Call} {s : Fs} (h : Run system cs s) :
    ∀ c ∈ cs, EventsOk maxDnum c.events := by
  refine h.history (I := fun cs _ => ∀ c ∈ cs, EventsOk maxDnum c.events) ?_ ?_
  · intro s _ c hc
    exact absurd hc List.not_mem_nil
  · intro cs s c s' hr hall hs c' hc'
    rcases List.mem_append.mp hc' with hc' | hc'
    · exact hall c' hc'
    · rw [List.mem_singleton.mp hc']
      exact (apply_good_max (reachable_good ⟨cs, hr⟩) hs).2

end Rufs
