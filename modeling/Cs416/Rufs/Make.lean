import Cs416.Rufs.AddEntry

/-!
# Making files and directories

`EntryOutcome` lists the ways the shared part of `rufs_mkdir` and `rufs_create` can end, and
`MakeOutcome` adds the new inode. `rufsMkdir_spec` and `rufsCreate_spec` say that these are
all; what follows is derived from the outcome alone: both operations keep the ownership of
blocks and the ledger, whether they succeed or not.
-/

open ByteMem Scan

namespace Rufs

/-- What a path can name. -/
inductive Kind
  | dir | file
  deriving DecidableEq

namespace Kind

/-- The file type bits of `st_mode`. -/
def fmt : Kind → ℕ
  | dir => sIfdir
  | file => sIfreg

end Kind

/-! ### New inodes -/

/-- The fields of a new inode: number `j`, mode `mode`, first pointer `b`, no data. -/
structure IsNew (j mode b : ℕ) (n : Inode) : Prop where
  ino : n.ino = j
  valid : n.valid = 1
  stMode : n.stMode = mode
  size : n.size = 0
  stSize : n.stSize = 0
  ptr_zero : n.directPtr 0 = b
  ptr_succ : ∀ k < numPtrs, k ≠ 0 → n.directPtr k = 0

section NewInodes

variable {n : Inode} {j mode b a k : ℕ} {env : Env}

/-- `fillStat` writes nothing in front of `vstat.st_nlink`. -/
theorem loadLe_fillStat (n : Inode) (mode nlink : ℕ) (env : Env) (h : a + k ≤ 128) :
    loadLe (n.fillStat mode nlink env) a k = loadLe n a k := by
  unfold Inode.fillStat Inode.setStMtime Inode.setStAtime Inode.setStNlink Inode.setStGid
    Inode.setStUid Inode.setStMode
  simp (disch := omega) only [loadLe_storeLe_of_disjoint]

theorem stMode_fillStat (n : Inode) {mode : ℕ} (nlink : ℕ) (env : Env) (h : mode < 2 ^ 32) :
    (n.fillStat mode nlink env).stMode = mode := by
  unfold Inode.fillStat Inode.setStMtime Inode.setStAtime Inode.setStNlink Inode.setStGid
    Inode.setStUid Inode.setStMode Inode.stMode
  simp (disch := omega) only [loadLe_storeLe_of_disjoint]
  exact loadLe_storeLe _ _ _ (by omega)

theorem stSize_fillStat (n : Inode) (mode nlink : ℕ) (env : Env) :
    (n.fillStat mode nlink env).stSize = n.stSize := by
  unfold Inode.fillStat Inode.setStMtime Inode.setStAtime Inode.setStNlink Inode.setStGid
    Inode.setStUid Inode.setStMode Inode.stSize
  simp (disch := omega) only [loadLe_storeLe_of_disjoint]

/-- Behind the first four fields a fresh inode is zero. -/
theorem loadLe_fresh (j type link : ℕ) (h : 16 ≤ a) : loadLe (Inode.fresh j type link) a k = 0 := by
  unfold Inode.fresh Inode.setLink Inode.setSize Inode.setType Inode.setValid Inode.setIno
  simp (disch := omega) only [loadLe_storeLe_of_disjoint]
  exact loadLe_zero a k

theorem fresh_fields (type link : ℕ) (hj : j < 2 ^ 16) :
    (Inode.fresh j type link).ino = j ∧ (Inode.fresh j type link).valid = 1 ∧
      (Inode.fresh j type link).size = 0 := by
  unfold Inode.fresh Inode.setLink Inode.setSize Inode.setType Inode.setValid Inode.setIno
    Inode.ino Inode.valid Inode.size
  simp (disch := omega) only [loadLe_storeLe_of_disjoint]
  exact ⟨loadLe_storeLe _ _ _ hj, loadLe_storeLe _ _ _ (by decide),
    loadLe_storeLe _ _ _ (by decide)⟩

theorem isNew_dirInode (hj : j < 2 ^ 16) (hb : b < 2 ^ 32) (hmode : sIfdir ||| mode < 2 ^ 32) :
    IsNew j (sIfdir ||| mode) b (dirInode j b mode env) := by
  obtain ⟨hino, hvalid, hsize⟩ := fresh_fields sIfdir 2 hj
  have hset : ∀ {a k : ℕ}, a + k ≤ 16 ∨ 20 ≤ a →
      loadLe ((Inode.fresh j sIfdir 2).setDirectPtr 0 b) a k
        = loadLe (Inode.fresh j sIfdir 2) a k :=
    fun h => loadLe_storeLe_of_disjoint _ (by omega)
  unfold dirInode
  refine ⟨?_, ?_, stMode_fillStat _ _ _ hmode, ?_, ?_, ?_, fun k hk h0 => ?_⟩
  · exact (loadLe_fillStat _ _ _ _ (by decide)).trans ((hset (by omega)).trans hino)
  · exact (loadLe_fillStat _ _ _ _ (by decide)).trans ((hset (by omega)).trans hvalid)
  · exact (loadLe_fillStat _ _ _ _ (by decide)).trans ((hset (by omega)).trans hsize)
  · rw [stSize_fillStat]
    exact (hset (by omega)).trans (loadLe_fresh _ _ _ (by decide))
  · exact (loadLe_fillStat _ _ _ _ (by decide)).trans (loadLe_storeLe _ _ _ (by omega))
  · unfold numPtrs at hk
    exact (loadLe_fillStat _ _ _ _ (by omega)).trans
      ((hset (by omega)).trans (loadLe_fresh _ _ _ (by omega)))

theorem isNew_fileInode (hj : j < 2 ^ 16) (hmode : sIfreg ||| mode < 2 ^ 32) :
    IsNew j (sIfreg ||| mode) 0 (fileInode j mode env) := by
  obtain ⟨hino, hvalid, hsize⟩ := fresh_fields sIfreg 1 hj
  unfold fileInode
  refine ⟨?_, ?_, stMode_fillStat _ _ _ hmode, ?_, ?_, ?_, fun k hk _ => ?_⟩
  · exact (loadLe_fillStat _ _ _ _ (by decide)).trans hino
  · exact (loadLe_fillStat _ _ _ _ (by decide)).trans hvalid
  · exact (loadLe_fillStat _ _ _ _ (by decide)).trans hsize
  · exact (stSize_fillStat _ _ _ _).trans (loadLe_fresh _ _ _ (by decide))
  · exact (loadLe_fillStat _ _ _ _ (by decide)).trans (loadLe_fresh _ _ _ (by decide))
  · unfold numPtrs at hk
    exact (loadLe_fillStat _ _ _ _ (by omega)).trans (loadLe_fresh _ _ _ (by omega))

/-- A new inode stays new when it is stored. -/
theorem IsNew.norm (h : IsNew j mode b n) : IsNew j mode b n.norm where
  ino := n.sameCore_norm.ino.trans h.ino
  valid := n.sameCore_norm.valid.trans h.valid
  stMode := n.sameCore_norm.stMode.trans h.stMode
  size := n.size_norm.trans h.size
  stSize := n.stSize_norm.trans h.stSize
  ptr_zero := (n.sameCore_norm.directPtr 0 (by decide)).trans h.ptr_zero
  ptr_succ k hk h0 := (n.sameCore_norm.directPtr k hk).trans (h.ptr_succ k hk h0)

end NewInodes

/-! ### The outcomes -/

/-- How the shared part ends, for the path of the parent and the new name: the numbers of the
parent and of the inode that was taken, or nothing. -/
inductive EntryOutcome (N : ℕ) (v : Vol) (P : List Name) (c : Name) :
    Option (ℕ × ℕ) → Vol → Prop
  | noParent : (∀ i, v.resolve P = some i → (v.inode i).isDir = false) →
      EntryOutcome N v P c none v
  | noIno (i : ℕ) : v.resolve P = some i → (v.inode i).isDir = true →
      (∀ j < maxInum, v.ibit j = true) → EntryOutcome N v P c none v
  | notAdded (i j : ℕ) (v' : Vol) : v.resolve P = some i → (v.inode i).isDir = true →
      j < maxInum → v.ibit j = false → AddOutcome N (v.markIno j) i j c false v' →
      EntryOutcome N v P c none v'
  | entered (i j : ℕ) (v' : Vol) : v.resolve P = some i → (v.inode i).isDir = true →
      j < maxInum → v.ibit j = false → AddOutcome N (v.markIno j) i j c true v' →
      EntryOutcome N v P c (some (i, j)) v'

/-- How `rufs_mkdir` (`Kind.dir`) and `rufs_create` (`Kind.file`) end: success, and the volume
they leave. -/
inductive MakeOutcome (N : ℕ) (v : Vol) (kind : Kind) (mode : ℕ) (P : List Name) (c : Name) :
    Bool → Vol → Prop
  | failed (v' : Vol) : EntryOutcome N v P c none v' → MakeOutcome N v kind mode P c false v'
  | madeDir (i j b : ℕ) (n : Inode) (v₁ : Vol) : kind = .dir → EntryOutcome N v P c (some (i, j)) v₁ →
      b < N → b < maxDnum → v₁.dbit b = false → IsNew j (sIfdir ||| mode) (67 + b) n →
      MakeOutcome N v kind mode P c true ((v₁.markBlk b).setInode j n)
  | madeFile (i j : ℕ) (n : Inode) (v₁ : Vol) : kind = .file →
      EntryOutcome N v P c (some (i, j)) v₁ → IsNew j (sIfreg ||| mode) 0 n →
      MakeOutcome N v kind mode P c true (v₁.setInode j n)

section Spec

variable {N : ℕ} {s : Fs} {path : CPath} {env : Env}

/-- Taking an inode earns the charge that its entry may cost. -/
theorem charged_markIno {v : Vol} {j : ℕ} (ho : Owned N v) (hc : Charged v 0) (hj : j < maxInum)
    (hbit : v.ibit j = false) : Charged (v.markIno j) 1 := by
  refine hc.markIno hj hbit fun hv => ?_
  rw [(ho.ibit_of_valid j hv).2] at hbit
  exact absurd hbit (by decide)

theorem newEntry_spec (hm : s.Mounted) (ho : Owned N s.vol) (hr : s.vol.Rooted)
    (hc : Charged s.vol 0) {notDir noIno noEntry : ℤ} (h₁ : notDir < 0) (h₂ : noIno < 0)
    (h₃ : noEntry < 0) (had : Admits N (newEntry notDir noIno noEntry s path.bytes env).2.2) :
    ∃ r s' e, newEntry notDir noIno noEntry s path.bytes env = (r, s', e) ∧ s'.Mounted ∧
      EventsOk N e ∧
      ((∃ code, r = .error code ∧ code < 0 ∧
        EntryOutcome N s.vol (tokens (dirname path.bytes)) (basename path.bytes) none s'.vol) ∨
       ∃ i j, r = .ok j ∧ EntryOutcome N s.vol (tokens (dirname path.bytes)) (basename path.bytes)
        (some (i, j)) s'.vol) := by
  obtain ⟨hnode, hev⟩ := getNodeByPath_spec hm ho hr path.dirname_short
  unfold newEntry at had ⊢
  -- the parent, as the source finds it
  rcases hg : getNodeByPath s (dirname path.bytes) 0 with ⟨_ | parent, e⟩
  · rw [hg] at hnode hev
    have hnone : s.vol.resolve (tokens (dirname path.bytes)) = none := by
      simpa using hnode.symm
    refine ⟨_, s, e, rfl, hm, hev, .inl ⟨_, rfl, by decide, .noParent fun i hi => ?_⟩⟩
    rw [hnone] at hi
    exact absurd hi (by simp)
  rw [hg] at hnode hev had
  obtain ⟨i, hres, rfl⟩ := Option.map_eq_some_iff.mp hnode.symm
  dsimp only at had hev ⊢
  -- the parent is no directory
  by_cases hd : (s.vol.inode i).isDir = false
  · rw [if_pos hd]
    refine ⟨_, s, e, rfl, hm, hev, .inl ⟨_, rfl, h₁, .noParent fun i' hi' => ?_⟩⟩
    rw [hres] at hi'
    obtain rfl := Option.some.inj hi'
    exact hd
  rw [if_neg hd] at had ⊢
  have hd' : (s.vol.inode i).isDir = true := by simpa using hd
  have hv := Vol.resolve_valid hr hres
  -- from here on a failure loses the inode that was taken
  rcases getAvailIno_cases hm with ⟨j, s₁, hj, hm₁, hjlt, hbit, hvol₁⟩ | ⟨hj, hall⟩
  · rw [hj] at had ⊢
    dsimp only at had ⊢
    have hinode : s.vol.inode i = s₁.vol.inode i := by rw [hvol₁, Vol.markIno_inode]
    have hv₁ : s₁.vol.Valid i := by rwa [Vol.Valid, ← hinode]
    have hev₁ : EventsOk N [.read 1, .write .getAvailIno 1] :=
      eventsOk_cons.mpr ⟨(by decide : 1 < 67).trans_le (Nat.le_add_right 67 N),
        eventsOk_cons.mpr ⟨rfl, eventsOk_nil⟩⟩
    rw [hinode] at had ⊢
    have had₂ : Admits N
        (dirAdd s₁ (s₁.vol.inode i) j (basename path.bytes) env.addTime).2.2 := by
      refine had.mono fun e' he' => ?_
      rcases ha : dirAdd s₁ (s₁.vol.inode i) j (basename path.bytes) env.addTime
        with ⟨_ | _, s₂, e₂⟩ <;>
      · rw [ha] at he'
        exact List.mem_append_right _ he'
    have ho₁ : Owned N s₁.vol := by rw [hvol₁]; exact ho.markIno j
    have hc₁ : Charged s₁.vol 1 := by rw [hvol₁]; exact charged_markIno ho hc hjlt hbit
    obtain ⟨ok, s₂, e₂, hadd, hm₂, hout, hev₂⟩ := dirAdd_spec hm₁ ho₁ hv₁ hc₁ had₂
    rw [hadd]
    rw [hvol₁] at hout
    have hev' := eventsOk_append.mpr ⟨eventsOk_append.mpr ⟨hev, hev₁⟩, hev₂⟩
    -- whether `dir_add` has entered the name
    cases ok with
    | false =>
      exact ⟨_, s₂, _, rfl, hm₂, hev',
        .inl ⟨_, rfl, h₃, .notAdded i j _ hres hd' hjlt hbit hout⟩⟩
    | true =>
      exact ⟨_, s₂, _, rfl, hm₂, hev', .inr ⟨i, j, rfl, .entered i j _ hres hd' hjlt hbit hout⟩⟩
  · rw [hj]
    refine ⟨_, s, _, rfl, hm, ?_, .inl ⟨_, rfl, h₂, .noIno i hres hd' hall⟩⟩
    refine eventsOk_append.mpr ⟨hev, eventsOk_cons.mpr ⟨?_, eventsOk_nil⟩⟩
    exact (by decide : 1 < 67).trans_le (Nat.le_add_right 67 N)

end Spec

/-! ### Consequences -/

section Entered

variable {N : ℕ} {v v₁ : Vol} {P : List Name} {c : Name} {i j : ℕ}

/-- An entry was made for an inode that is taken and not valid yet. -/
structure Entered (N : ℕ) (v : Vol) (P : List Name) (c : Name) (i j : ℕ) (v₁ : Vol) : Prop where
  parent : v.resolve P = some i
  isDir : (v.inode i).isDir = true
  lt : j < maxInum
  free : v.ibit j = false
  added : AddOutcome N (v.markIno j) i j c true v₁

theorem EntryOutcome.entered' (h : EntryOutcome N v P c (some (i, j)) v₁) :
    Entered N v P c i j v₁ := by
  cases h with
  | entered _ _ _ hres hd hj hbit hout => exact ⟨hres, hd, hj, hbit, hout⟩

variable (h : Entered N v P c i j v₁) (ho : Owned N v) (hr : v.Rooted)

include h

theorem Entered.parent_valid (hr : v.Rooted) : v.Valid i := Vol.resolve_valid hr h.parent

theorem Entered.new_invalid (ho : Owned N v) : ¬ v.Valid j := by
  intro hv
  have hfree := h.free
  rw [(ho.ibit_of_valid j hv).2] at hfree
  exact absurd hfree (by decide)

theorem Entered.valid_iff (i' : ℕ) : v₁.Valid i' ↔ v.Valid i' := h.added.valid_iff i'

theorem Entered.new_invalid' (ho : Owned N v) : ¬ v₁.Valid j :=
  fun hv => h.new_invalid ho ((h.valid_iff j).mp hv)

theorem Entered.ibit_new : v₁.ibit j = true := by
  rw [h.added.ibit]
  exact Function.update_self _ _ _

theorem Entered.owned (ho : Owned N v) (hr : v.Rooted) : Owned N v₁ :=
  h.added.owned (ho.markIno j) (h.parent_valid hr)

theorem Entered.charged (ho : Owned N v) (hr : v.Rooted) (hc : Charged v 0) : Charged v₁ 1 :=
  h.added.charged (k := 0) (ho.markIno j) (h.parent_valid hr) (charged_markIno ho hc h.lt h.free)

theorem Entered.rooted (hr : v.Rooted) : v₁.Rooted := h.added.rooted ⟨hr.valid, hr.isDir⟩

end Entered

/-! ### Specifications of the operations -/

section Operations

variable {N : ℕ} {s : Fs} {path : CPath} {env : Env} {mode : ℕ}

theorem or_mode_lt {fmt mode : ℕ} (hf : fmt < 2 ^ 32) (hm : mode < 2 ^ 32) :
    fmt ||| mode < 2 ^ 32 :=
  Nat.or_lt_two_pow hf hm

/-- **The outcomes of `rufs_mkdir`.** -/
theorem rufsMkdir_spec (hm : s.Mounted) (ho : Owned N s.vol) (hr : s.vol.Rooted)
    (hc : Charged s.vol 0) (hmode : mode < 2 ^ 32)
    (had : Admits N (rufsMkdir s path.bytes mode env).2.2) :
    ∃ r s' e ok, rufsMkdir s path.bytes mode env = (r, s', e) ∧ s'.Mounted ∧ EventsOk N e ∧
      (if ok = true then r = 0 else r < 0) ∧
      MakeOutcome N s.vol .dir mode (tokens (dirname path.bytes)) (basename path.bytes) ok
        s'.vol := by
  -- the blocks the entry takes are among those of the whole call
  have had₁ : Admits N (newEntry (-1) (-1) (-1) s path.bytes env).2.2 := by
    refine had.mono fun e he => ?_
    unfold rufsMkdir
    rcases hn : newEntry (-1) (-1) (-1) s path.bytes env with ⟨_ | j, s₁, e₁⟩
    · rwa [hn] at he
    · rw [hn] at he
      dsimp only at he ⊢
      rcases getAvailBlkno s₁ with ⟨_ | b, s₂, e₂⟩
      · exact List.mem_append_left _ he
      · exact List.mem_append_left _ (List.mem_append_left _ he)
  obtain ⟨r, s₁, e, hn, hm₁, hev, hout⟩ :=
    newEntry_spec hm ho hr hc (by decide) (by decide) (by decide) had₁
  unfold rufsMkdir at had ⊢
  rw [hn] at had ⊢
  rcases hout with ⟨code, rfl, hneg, hout⟩ | ⟨i, j, rfl, hout⟩
  · exact ⟨code, s₁, e, false, rfl, hm₁, hev, hneg, .failed _ hout⟩
  have hent := hout.entered'
  -- `mkdir` takes a block for the new directory
  have hfree : ∃ b < maxDnum, s₁.vol.dbit b = false :=
    (hent.charged ho hr hc).exists_free (Nat.lt_succ_of_le (charge_le s₁.vol))
  dsimp only at had ⊢
  have had₂ : Admits N (getAvailBlkno s₁).2.2 := by
    refine had.mono fun e' he' => ?_
    rcases hg : getAvailBlkno s₁ with ⟨_ | b, s₂, e₂⟩
    · rw [hg] at he'
      exact List.mem_append_right _ he'
    · rw [hg] at he'
      exact List.mem_append_left _ (List.mem_append_right _ he')
  obtain ⟨b, s₂, e₂, hb, hm₂, hbN, hbd, hbit, hvol₂, hev₂⟩ := getAvailBlkno_spec hm₁ hfree had₂
  rw [hb]
  dsimp only
  obtain ⟨s₃, hw, hm₃, hvol₃⟩ := writei_eq hm₂ hent.lt (dirInode j (67 + b) mode env)
  rw [hw]
  refine ⟨0, s₃, _, true, rfl, hm₃, ?_, rfl, ?_⟩
  · exact eventsOk_append.mpr ⟨eventsOk_append.mpr ⟨hev, hev₂⟩, inodeBlk_events hent.lt⟩
  · rw [hvol₃, hvol₂]
    have hj := hent.lt
    unfold maxInum at hj
    unfold maxDnum at hbd
    exact .madeDir i j b _ s₁.vol rfl hout hbN hbd hbit
      (isNew_dirInode (by omega) (by omega) (or_mode_lt (by decide) hmode))

/-- **The outcomes of `rufs_create`.** -/
theorem rufsCreate_spec (hm : s.Mounted) (ho : Owned N s.vol) (hr : s.vol.Rooted)
    (hc : Charged s.vol 0) (hmode : mode < 2 ^ 32)
    (had : Admits N (rufsCreate s path.bytes mode env).2.2) :
    ∃ r s' e ok, rufsCreate s path.bytes mode env = (r, s', e) ∧ s'.Mounted ∧ EventsOk N e ∧
      (if ok = true then r = 0 else r < 0) ∧
      MakeOutcome N s.vol .file mode (tokens (dirname path.bytes)) (basename path.bytes) ok
        s'.vol := by
  -- the blocks the entry takes are those of the whole call
  have had₁ : Admits N (newEntry (-eNotdir) (-eNospc) (-eIo) s path.bytes env).2.2 := by
    refine had.mono fun e he => ?_
    unfold rufsCreate
    rcases hn : newEntry (-eNotdir) (-eNospc) (-eIo) s path.bytes env with ⟨_ | j, s₁, e₁⟩
    · rwa [hn] at he
    · rw [hn] at he
      exact List.mem_append_left _ he
  obtain ⟨r, s₁, e, hn, hm₁, hev, hout⟩ :=
    newEntry_spec hm ho hr hc (by decide) (by decide) (by decide) had₁
  unfold rufsCreate
  rw [hn]
  rcases hout with ⟨code, rfl, hneg, hout⟩ | ⟨i, j, rfl, hout⟩
  · exact ⟨code, s₁, e, false, rfl, hm₁, hev, hneg, .failed _ hout⟩
  have hent := hout.entered'
  obtain ⟨s₂, hw, hm₂, hvol₂⟩ := writei_eq hm₁ hent.lt (fileInode j mode env)
  dsimp only
  rw [hw]
  refine ⟨0, s₂, _, true, rfl, hm₂, eventsOk_append.mpr ⟨hev, inodeBlk_events hent.lt⟩, rfl, ?_⟩
  rw [hvol₂]
  have hj := hent.lt
  unfold maxInum at hj
  exact .madeFile i j _ s₁.vol rfl hout
    (isNew_fileInode (by omega) (or_mode_lt (by decide) hmode))

end Operations

/-! ### What both operations keep -/

section Keep

variable {N : ℕ} {v v' : Vol} {kind : Kind} {mode : ℕ} {P : List Name} {c : Name} {ok : Bool}

/-- A failure keeps every inode and every data block. -/
theorem EntryOutcome.failed_unchanged (h : EntryOutcome N v P c none v') :
    v'.inode = v.inode ∧ v'.data = v.data := by
  cases h with
  | noParent _ => exact ⟨rfl, rfl⟩
  | noIno _ _ _ _ => exact ⟨rfl, rfl⟩
  | notAdded i j _ _ _ _ _ hout => exact hout.unchanged

theorem EntryOutcome.failed_owned (h : EntryOutcome N v P c none v') (ho : Owned N v)
    (hr : v.Rooted) (hc : Charged v 0) : Owned N v' ∧ v'.Rooted ∧ Charged v' 0 := by
  cases h with
  | noParent _ => exact ⟨ho, hr, hc⟩
  | noIno _ _ _ _ => exact ⟨ho, hr, hc⟩
  | notAdded i j _ hres hd hj hbit hout =>
    have hv := Vol.resolve_valid hr hres
    exact ⟨hout.owned (ho.markIno j) hv, hout.rooted ⟨hr.valid, hr.isDir⟩,
      hout.charged (k := 0) (ho.markIno j) hv (charged_markIno ho hc hj hbit)⟩

/-- Storing a new inode does not touch the root. -/
theorem Vol.Rooted.setInode (hr : v.Rooted) {j : ℕ} (hj : ¬ v.Valid j) (n : Inode) :
    (v.setInode j n).Rooted := by
  have hne : 0 ≠ j := by
    rintro rfl
    exact hj hr.valid
  have h0 : (v.setInode j n).inode 0 = v.inode 0 := v.setInode_of_ne hne n
  refine ⟨?_, ?_⟩
  · rw [Vol.Valid, h0]
    exact hr.valid
  · rw [h0]
    exact hr.isDir

theorem IsNew.valid_ne {j b : ℕ} {n : Inode} (h : IsNew j mode b n) : n.valid ≠ 0 := by
  rw [h.valid]
  decide

/-- Storing a new file. -/
theorem Owned.newFile {j : ℕ} {n : Inode} (ho : Owned N v) (hj : j < maxInum)
    (hbit : v.ibit j = true) (hn : IsNew j mode 0 n) : Owned N (v.setInode j n) := by
  have hptr : ∀ k < numPtrs, n.directPtr k = 0 := fun k hk => by
    by_cases h0 : k = 0
    · rw [h0, hn.ptr_zero]
    · exact hn.ptr_succ k hk h0
  exact ho.setInode hj hbit hn.ino (fun k hk hp => absurd (hptr k hk) hp)
    (fun k hk _ _ hp => absurd (hptr k hk) hp) fun k hk hp => absurd (hptr k hk) hp

/-- Storing a new directory, with a free block as its first. -/
theorem Owned.newDir {j b : ℕ} {n : Inode} (ho : Owned N v) (hj : j < maxInum)
    (hbit : v.ibit j = true) (hb : b < N) (hfree : v.dbit b = false) (hn : IsNew j mode (67 + b) n) :
    Owned N ((v.markBlk b).setInode j n) := by
  have hptr : ∀ k < numPtrs, n.directPtr k ≠ 0 → k = 0 := fun k hk hp => by
    by_contra h0
    exact hp (hn.ptr_succ k hk h0)
  refine (ho.markBlk b).setInode hj hbit hn.ino ?_ ?_ ?_
  · intro k hk hp
    rw [hptr k hk hp, hn.ptr_zero]
    exact ⟨b, hb, rfl, Function.update_self _ _ _⟩
  · intro k hk k' hk' hp heq
    rw [hptr k hk hp, hptr k' hk' (heq ▸ hp)]
  · intro k hk hp i' k' _ hi' hk' heq
    rw [hptr k hk hp, hn.ptr_zero] at heq
    exact ho.ptr_ne_of_free hfree hi' hk' heq.symm

/-- **Both operations keep ownership and the ledger**, on success and on failure. -/
theorem MakeOutcome.keeps (h : MakeOutcome N v kind mode P c ok v') (ho : Owned N v)
    (hr : v.Rooted) (hc : Charged v 0) : Owned N v' ∧ v'.Rooted ∧ Charged v' 0 := by
  cases h with
  | failed _ hout => exact hout.failed_owned ho hr hc
  | madeDir i j b n v₁ _ hout hb hbd hbit hn =>
    have hent := hout.entered'
    have hnew := hent.new_invalid' ho
    have hp : nptrs n = 1 :=
      nptrs_eq_one (by rw [hn.ptr_zero]; omega) hn.ptr_succ
    refine ⟨(hent.owned ho hr).newDir hent.lt hent.ibit_new hb hbit hn,
      Vol.Rooted.setInode (v := v₁.markBlk b) ⟨(hent.rooted hr).valid, (hent.rooted hr).isDir⟩
        hnew n, ?_⟩
    have hc₁ := (hent.charged ho hr hc).newInode (k := 0) hent.lt hnew hn.valid_ne
    rw [hp] at hc₁
    exact hc₁.markBlk hbd hbit
  | madeFile i j n v₁ _ hout hn =>
    have hent := hout.entered'
    have hnew := hent.new_invalid' ho
    refine ⟨(hent.owned ho hr).newFile hent.lt hent.ibit_new hn,
      (hent.rooted hr).setInode hnew n, ?_⟩
    exact (Nat.le_add_right _ _).trans
      ((hent.charged ho hr hc).newInode (k := 0) hent.lt hnew hn.valid_ne)

end Keep

end Rufs
