import Cs416.Rufs.NamespaceRuns
import Cs416.Rufs.WriteBack

/-!
# A run that leaves the device

The data bitmap has `MAX_DNUM` bits, but only 8125 data blocks fit on the 32 MB image. The run
here makes the directory `/d`, then 300 files in the root and 300 in `/d`, and writes 64 KB to
each. That takes 9600 blocks, and blocks have one owner each, so some file has a pointer behind
the end of the image; the next write to it goes there.

Nothing of this is computed. `Filled m` is what holds after `m` files, and `filled_step` shows
that the next one can be made: its directory has room because every file before it took one
entry, and there is an inode left because every file took one.
-/

open ByteMem Scan Lts

namespace Rufs

/-! ### Room in a directory -/

/-- The number of entries in use. -/
def Vol.used (v : Vol) (i : ℕ) : ℕ :=
  ((Finset.range numEnts).filter fun k => v.slot (v.inode i) entUsed k = true).card

section Room

variable {N : ℕ} {v v' : Vol} {i j e f : ℕ} {kind : Kind} {mode : ℕ} {P : List Name} {c : Name}

theorem Vol.used_congr (hp : ∀ k < numPtrs, v'.ptr i k = v.ptr i k)
    (hd : ∀ k < numPtrs, v.ptr i k ≠ 0 → v'.data (v.ptr i k) = v.data (v.ptr i k)) :
    v'.used i = v.used i := by
  unfold Vol.used
  congr 1
  refine Finset.filter_congr fun k hk => ?_
  rw [(Vol.slot_congr hp hd entUsed (Finset.mem_range.mp hk)).1]

theorem Vol.used_of_zero (h : ∀ k < numPtrs, v.ptr i k ≠ 0 → v.data (v.ptr i k) = zeroBlock) :
    v.used i = 0 := by
  unfold Vol.used
  rw [Finset.card_eq_zero, Finset.filter_eq_empty_iff]
  intro k hk
  have hkm := div_entsPerBlk_lt (Finset.mem_range.mp hk)
  unfold Vol.slot
  by_cases h0 : v.ptr i (k / entsPerBlk) = 0
  · rw [show (v.inode i).directPtr (k / entsPerBlk) = 0 from h0]
    simp
  · rw [h _ hkm h0, entryLocal_entUsed.zero, Bool.and_false]
    decide

/-- A directory that is not full has room. -/
theorem Vol.room_of_used (h : v.used i < numEnts) :
    (∃ k < numEnts, v.slot (v.inode i) entFree k = true) ∨ ∃ m < numPtrs, v.ptr i m = 0 := by
  have hsome : ∃ k < numEnts, v.slot (v.inode i) entUsed k = false := by
    by_contra hall
    refine h.ne ?_
    unfold Vol.used
    rw [Finset.filter_true_of_mem, Finset.card_range]
    intro k hk
    by_contra hk'
    exact hall ⟨k, Finset.mem_range.mp hk, by simpa using hk'⟩
  obtain ⟨k, hk, hslot⟩ := hsome
  by_cases h0 : v.ptr i (k / entsPerBlk) = 0
  · exact .inr ⟨_, div_entsPerBlk_lt hk, h0⟩
  · refine .inl ⟨k, hk, ?_⟩
    unfold Vol.slot entUsed at hslot
    unfold Vol.slot
    rw [bne_iff_ne.mpr h0, Bool.true_and] at hslot ⊢
    simpa using hslot

/-- An entry takes one place. -/
theorem Inserted.used_le {k : ℕ} (h : Inserted v v' i f c k) : v'.used i ≤ v.used i + 1 := by
  refine (Finset.card_le_card ?_).trans (Finset.card_insert_le k _)
  intro k' hk'
  rw [Finset.mem_filter, Finset.mem_range] at hk'
  rw [Finset.mem_insert, Finset.mem_filter, Finset.mem_range]
  by_cases hkk : k' = k
  · exact .inl hkk
  · rw [h.other k' hk'.1 hkk _ entryLocal_entUsed] at hk'
    exact .inr hk'

/-- What `mkdir` and `create` cost: one entry of the parent and one inode. -/
theorem MakeOutcome.cost (h : MakeOutcome N v kind mode P c true v') (ho : Owned N v)
    (hr : v.Rooted) :
    (∀ e, v.Valid e → v'.used e ≤ v.used e + if v.resolve P = some e then 1 else 0) ∧
    clearCount v.ibit maxInum = clearCount v'.ibit maxInum + 1 ∧
    ∀ e, v.Valid e → (v.inode e).isDir = false → v'.inode e = v.inode e := by
  -- both operations enter the name and then store the new inode
  have hmade : ∀ {i j : ℕ} {n : Inode} {v₁ v₂ : Vol}, v₂.ibit = v₁.ibit → v₂.inode = v₁.inode →
      v₂.data = v₁.data → Entered N v P c i j v₁ →
      (∀ e, v.Valid e →
        (v₂.setInode j n).used e ≤ v.used e + if v.resolve P = some e then 1 else 0) ∧
      clearCount v.ibit maxInum = clearCount (v₂.setInode j n).ibit maxInum + 1 ∧
      ∀ e, v.Valid e → (v.inode e).isDir = false → (v₂.setInode j n).inode e = v.inode e := by
    intro i j n v₁ v₂ hibit hinode hdata hent
    have hvi := hent.parent_valid hr
    have hj := hent.lt
    have hother : ∀ e, v.Valid e → (v₂.setInode j n).inode e = v₁.inode e := by
      intro e he
      have hne : e ≠ j := by
        rintro rfl
        exact hent.new_invalid ho he
      rw [v₂.setInode_of_ne hne, hinode]
    refine ⟨fun e he => ?_, ?_, fun e he hd => ?_⟩
    · have hsame : (v₂.setInode j n).used e = v₁.used e :=
        Vol.used_congr (fun k _ => by rw [Vol.ptr, Vol.ptr, hother e he])
          fun k _ _ => by rw [Vol.setInode_data, hdata]
      rw [hsame]
      -- the parent has one entry more, the other directories have theirs
      by_cases hei : e = i
      · subst hei
        rw [if_pos hent.parent]
        obtain ⟨k, hins⟩ := hent.added.inserted (ho.markIno j) hvi (by unfold maxInum at hj; omega)
        exact hins.used_le
      · have hframe : v₁.used e = v.used e :=
          Vol.used_congr (fun k _ => by rw [Vol.ptr, hent.added.inode_of_ne hei]; rfl)
            fun k hk hp => hent.added.data_of_ne (ho.markIno j) hvi hei he hk hp
        rw [hframe]
        exact Nat.le_add_right _ _
    -- one bit of the inode bitmap is set
    · rw [Vol.setInode_ibit, hibit, hent.added.ibit, Vol.markIno_ibit]
      exact (clearCount_use hent.lt hent.free).symm
    · have hei : e ≠ i := by
        rintro rfl
        have hdir := hent.isDir
        rw [hd] at hdir
        exact absurd hdir (by decide)
      rw [hother e he, hent.added.inode_of_ne hei]
      rfl
  cases h with
  | madeDir i j b n v₁ _ hout _ _ _ _ =>
    exact hmade (v₁.markBlk_ibit b) (v₁.markBlk_inode b) (v₁.markBlk_data b) hout.entered'
  | madeFile i j n v₁ _ hout _ => exact hmade rfl rfl rfl hout.entered'

end Room

/-! ### The run -/

/-- Name `k` of a directory. -/
def fileName (k : ℕ) : Name := [UInt8.ofNat (65 + k / 16), UInt8.ofNat (65 + k % 16)]

/-- The directory of file `j`: the root, then `/d`. -/
def fileDir (j : ℕ) : List Name := if j < 300 then [] else [[100]]

/-- File `j` of 600. -/
def fileComps (j : ℕ) : List Name := fileDir j ++ [fileName (j % 300)]

theorem fileName_inj {j k : ℕ} (hj : j < 300) (hk : k < 300) (h : fileName j = fileName k) :
    j = k := by
  obtain ⟨h₁, h₂⟩ := List.cons_eq_cons.mp h
  have h₂' := (List.cons_eq_cons.mp h₂).1
  have hdiv := congrArg UInt8.toNat h₁
  have hmod := congrArg UInt8.toNat h₂'
  simp only [UInt8.toNat_ofNat'] at hdiv hmod
  omega

theorem fileName_bytes : ∀ k < 300, slash ∉ fileName k ∧ (0 : UInt8) ∉ fileName k ∧
    fileName k ≠ [46, 46] := by
  decide +kernel

theorem isName_fileName {k : ℕ} (hk : k < 300) : IsName (fileName k) := by
  obtain ⟨hs, h0, hdd⟩ := fileName_bytes k hk
  exact ⟨List.cons_ne_nil _ _, hs, h0, fun h => by simp [fileName] at h, hdd⟩

theorem isName_d : IsName [100] := by
  constructor <;> decide

/-- The path `/d`. -/
def dirPath : TreePath := ⟨[[100]], by simpa using isName_d, by decide⟩

theorem fileComps_short (j : ℕ) : (pathBytes (fileComps j)).length < pathMax := by
  unfold fileComps fileDir fileName
  split <;> simp [pathBytes, render, pathMax]

/-- The path of file `j`. -/
def filePath (j : ℕ) : TreePath where
  comps := fileComps j
  names := by
    have hname := isName_fileName (Nat.mod_lt j (by decide : 0 < 300))
    unfold fileComps fileDir
    split
    · simpa using hname
    · simpa using ⟨isName_d, hname⟩
  short := fileComps_short j

theorem fileComps_inj {j k : ℕ} (hj : j < 600) (hk : k < 600) (h : fileComps j = fileComps k) :
    j = k := by
  obtain ⟨hdir, hname⟩ := List.append_inj' h rfl
  have hmod := fileName_inj (Nat.mod_lt j (by decide)) (Nat.mod_lt k (by decide))
    (List.cons_eq_cons.mp hname).1
  unfold fileDir at hdir
  split at hdir <;> split at hdir
  · omega
  · exact absurd hdir (by decide)
  · exact absurd hdir (by decide)
  · omega

theorem fileComps_ne_dir (j : ℕ) : fileComps j ≠ [[100]] := by
  unfold fileComps fileDir fileName
  split <;> simp

/-- `time`, `getuid` and `getgid` answer `0`. -/
def zeroEnv : Env := ⟨0, 0, 0, 0⟩

section Steps

variable {s : Fs} {kind : Kind} {P : List Name} {c : Name}

/-- The call that makes a path. -/
def makeOp (kind : Kind) (p : TreePath) : Op :=
  match kind with
  | .dir => .mkdir p.toCPath 0o644 zeroEnv
  | .file => .create p.toCPath 0o644 zeroEnv

/-- A path can be made in a directory that is not full. -/
theorem Tidy.make (h : Tidy s) (kind : Kind) {p : TreePath} (hp : p.comps = P ++ [c]) {i : ℕ}
    (hres : s.vol.resolve P = some i) (hd : (s.vol.inode i).isDir = true)
    (hl : c.length ≤ nameMax) (hnew : s.vol.resolve (P ++ [c]) = none)
    (hroom : s.vol.used i < numEnts) (hfree : clearCount s.vol.ibit maxInum ≠ 0) :
    ∃ r e s', treeSystem.step s ⟨makeOp kind p, r, e⟩ s' ∧
      MakeOutcome maxDnum s.vol kind 0o644 P c true s'.vol := by
  obtain ⟨hP, hc, -⟩ := TreePath.split hp
  have hbit : ∃ j < maxInum, s.vol.ibit j = false := by
    by_contra hall
    refine hfree (clearCount_eq_zero.mpr fun j hj => ?_)
    by_contra hj'
    exact hall ⟨j, hj, by simpa using hj'⟩
  -- an entry would name a valid inode
  have hlookup : s.vol.lookup i c = none := by
    cases hk : s.vol.lookup i c with
    | none => rfl
    | some k =>
      have hv := (h.named.valid i c k (Vol.resolve_valid h.good.rooted hres) hd hk).1
      rw [Vol.resolve_concat_eq_some.mpr ⟨i, hres, hd, hk, hv⟩] at hnew
      exact absurd hnew (by simp)
  cases kind with
  | dir =>
    have had : Admits maxDnum (rufsMkdir s p.toCPath.bytes 0o644 zeroEnv).2.2 := .inl rfl
    obtain ⟨r, s', e, ok, hmk, -, -, -, hout⟩ := rufsMkdir_spec h.good.mounted h.good.owned
      h.good.rooted h.good.charged (by decide) had
    rw [hP, hc] at hout
    obtain rfl := hout.ok_iff.mpr ⟨i, hres, hd, hl, hlookup, Vol.room_of_used hroom, hbit⟩
    refine ⟨.code r, e, s', ⟨?_, ⟨⟨p, rfl⟩, by decide⟩⟩, hout⟩
    change some (Result.code (rufsMkdir s p.toCPath.bytes 0o644 zeroEnv).1,
      (rufsMkdir s p.toCPath.bytes 0o644 zeroEnv).2) = _
    rw [hmk]
  | file =>
    have had : Admits maxDnum (rufsCreate s p.toCPath.bytes 0o644 zeroEnv).2.2 := .inl rfl
    obtain ⟨r, s', e, ok, hmk, -, -, -, hout⟩ := rufsCreate_spec h.good.mounted h.good.owned
      h.good.rooted h.good.charged (by decide) had
    rw [hP, hc] at hout
    obtain rfl := hout.ok_iff.mpr ⟨i, hres, hd, hl, hlookup, Vol.room_of_used hroom, hbit⟩
    refine ⟨.code r, e, s', ⟨?_, ⟨⟨p, rfl⟩, by decide⟩⟩, hout⟩
    change some (Result.code (rufsCreate s p.toCPath.bytes 0o644 zeroEnv).1,
      (rufsCreate s p.toCPath.bytes 0o644 zeroEnv).2) = _
    rw [hmk]

/-- A regular file can be filled: all its pointers are set then. -/
theorem Tidy.fill (h : Tidy s) {p : TreePath} {f : ℕ} (hres : s.vol.resolve p.comps = some f)
    (hreg : (s.vol.inode f).isReg = true) :
    ∃ call s', treeSystem.step s call s' ∧ (∀ k < numPtrs, s'.vol.ptr f k ≠ 0) ∧
      (∀ i, i ≠ f → s'.vol.inode i = s.vol.inode i) ∧
      (∀ i, (s'.vol.inode i).isDir = (s.vol.inode i).isDir) ∧
      (s'.vol.inode f).isReg = true ∧ (∀ q, s'.vol.resolve q = s.vol.resolve q) ∧
      s'.vol.ibit = s.vol.ibit ∧ ∀ i, s.vol.Valid i → (s.vol.inode i).isDir = true →
        s'.vol.used i = s.vol.used i := by
  -- one write of 16 blocks
  obtain ⟨r, s', e, hw⟩ :=
    rufsWrite_isSome s p.toCPath.bytes (fun _ => 1) 65536 zeroEnv (by decide : 0 < 2 ^ 43)
  have hres' : s.vol.resolve (tokens p.toCPath.bytes) = some f := by rwa [p.tokens_bytes]
  obtain ⟨-, -, ⟨-, -, hno⟩ | ⟨f', len, hf', -, -, hlen, hwr⟩⟩ := rufsWrite_spec h.good.mounted
    h.good.owned h.good.rooted h.good.charged hw (.inl rfl)
  · rw [hno f hres'] at hreg
    exact absurd hreg (by decide)
  rw [hres'] at hf'
  obtain rfl := Option.some.inj hf'
  rw [writePos_eq (by decide)] at hlen hwr
  obtain rfl : len = 65536 := hlen.trans (by decide)
  have hstep : treeSystem.step s
      ⟨.write p.toCPath (fun _ => 1) 65536 0 zeroEnv, .code r, e⟩ s' := by
    refine ⟨?_, ⟨⟨p, rfl⟩, by decide⟩⟩
    change (rufsWrite s p.toCPath.bytes (fun _ => 1) 65536 0 zeroEnv).map _ = _
    rw [hw]
    rfl
  refine ⟨_, s', hstep, fun k hk => ?_, fun i hne => hwr.inode_of_ne hne, hwr.isDir, ?_,
    fun q => ?_, hwr.ibit, fun i hi hd => ?_⟩
  -- block `k` has been written, so it is there
  · have hset := hwr.ptr_set (p := k * blockSize) (by decide) (Nat.zero_le _)
      (by unfold numPtrs at hk; unfold blockSize; omega)
    rwa [Nat.mul_div_cancel _ (by decide)] at hset
  · rw [← hreg, Inode.isReg, Inode.isReg, hwr.stMode]
  · exact Vol.resolve_congr h.good.rooted hwr.valid_iff (fun i _ => hwr.isDir i)
      fun i c hi hd => hwr.lookup hreg hi hd c
  -- the file is no directory
  · have hne : i ≠ f := by
      rintro rfl
      rw [Inode.isReg_of_isDir hd] at hreg
      exact absurd hreg (by decide)
    exact Vol.used_congr (fun k _ => by rw [Vol.ptr, hwr.inode_of_ne hne])
      fun k hk hp => hwr.others hne hi hk hp

end Steps

/-- What holds after `m` files. -/
structure Filled (m : ℕ) (s : Fs) : Prop where
  reachable : Reachable treeSystem s
  sub : ∃ d, s.vol.resolve [[100]] = some d ∧ (s.vol.inode d).isDir = true ∧
    s.vol.used d ≤ m - 300
  root : s.vol.used 0 ≤ 1 + m
  free : 1022 ≤ clearCount s.vol.ibit maxInum + m
  fresh : ∀ j, m ≤ j → j < 600 → s.vol.resolve (fileComps j) = none
  files : ∃ A : Finset ℕ, A.card = m ∧ ∀ i ∈ A, (∃ p : TreePath, s.vol.resolve p.comps = some i) ∧
    (s.vol.inode i).isReg = true ∧ ∀ k < numPtrs, s.vol.ptr i k ≠ 0

/-- `/d` is made. -/
theorem filled_zero : ∃ s, Filled 0 s := by
  obtain ⟨htidy, hres⟩ := rufsMkfs_tidy zeroEnv
  obtain ⟨-, hvol⟩ := rufsMkfs_spec zeroEnv
  have hreach : Reachable treeSystem (rufsMkfs zeroEnv).1 := .start ⟨zeroEnv, rfl⟩
  have hdata : ∀ b, (rufsMkfs zeroEnv).1.vol.data b = zeroBlock := fun b => by
    rw [hvol]
    rfl
  have hused : (rufsMkfs zeroEnv).1.vol.used 0 = 0 := Vol.used_of_zero fun k _ _ => hdata _
  -- the root has taken one of the 1024 inodes
  have hfree : clearCount (rufsMkfs zeroEnv).1.vol.ibit maxInum = 1023 := by
    have huse : clearCount (Function.update blankVol.ibit 0 true) maxInum + 1
        = clearCount blankVol.ibit maxInum := clearCount_use (by decide) rfl
    have hblank : clearCount blankVol.ibit maxInum = maxInum := clearCount_of_clear fun _ => rfl
    have hbits : (rufsMkfs zeroEnv).1.vol.ibit = Function.update blankVol.ibit 0 true := by
      rw [hvol]
      rfl
    rw [hbits]
    unfold maxInum at *
    omega
  have hroot : (rufsMkfs zeroEnv).1.vol.resolve [] = some 0 := rfl
  generalize (rufsMkfs zeroEnv).1 = s at *
  obtain ⟨r, e, s', hstep, hout⟩ := htidy.make .dir (p := dirPath) (P := []) rfl hroot
    htidy.good.rooted.isDir (by decide) (by rw [hres]; rfl) (by rw [hused]; decide)
    (by rw [hfree]; decide)
  obtain ⟨d, j, hgrown⟩ := hout.grown htidy.good.owned htidy.good.rooted (by decide)
  obtain ⟨hcost, hibit, -⟩ := hout.cost htidy.good.owned htidy.good.rooted
  have hres' := fun p => hgrown.resolve (p := p) htidy.good.rooted htidy.named
  refine ⟨s', hreach.step hstep, ⟨j, ?_, hgrown.new_isDir.mpr rfl, ?_⟩, ?_, ?_, ?_, ∅, rfl, ?_⟩
  · rw [hres']
    exact if_pos rfl
  · rw [Vol.used_of_zero hgrown.new_zero]
  · have h := hcost 0 htidy.good.rooted.valid
    rw [hused, if_pos hroot] at h
    exact h
  · omega
  · intro k _ hk
    rw [hres', if_neg (show fileComps k ≠ [] ++ [[100]] from fileComps_ne_dir k), hres, if_neg]
    unfold fileComps
    simp
  · intro i hi
    exact absurd hi (Finset.notMem_empty i)

/-- **One more file.** -/
theorem filled_step {m : ℕ} {s : Fs} (h : Filled m s) (hm : m < 600) : ∃ s', Filled (m + 1) s' := by
  have htidy := treeSystem_tidy h.reachable
  obtain ⟨d, hd, hdir, hdused⟩ := h.sub
  obtain ⟨A, hcard, hA⟩ := h.files
  have hfree := h.free
  have hroot := h.root
  -- the directory of file `m`
  have hparent : ∃ i, s.vol.resolve (fileDir m) = some i ∧ (s.vol.inode i).isDir = true ∧
      s.vol.used i < numEnts := by
    unfold fileDir numEnts entsPerBlk numPtrs blockSize direntSize
    split
    · exact ⟨0, rfl, htidy.good.rooted.isDir, by omega⟩
    · exact ⟨d, hd, hdir, by omega⟩
  obtain ⟨i, hi, hidir, hroom⟩ := hparent
  obtain ⟨r, e, s₁, hstep₁, hout⟩ := htidy.make .file (p := filePath m) rfl hi hidir
    (by simp [fileName, nameMax]) (h.fresh m le_rfl hm) hroom (by omega)
  obtain ⟨i', j, hgrown⟩ := hout.grown htidy.good.owned htidy.good.rooted (by decide)
  obtain ⟨hcost, hibit, hkeep⟩ := hout.cost htidy.good.owned htidy.good.rooted
  have hres₁ := fun p => hgrown.resolve (p := p) htidy.good.rooted htidy.named
  have htidy₁ := tidy_step htidy hstep₁
  have hj : s₁.vol.resolve (filePath m).comps = some j := by
    rw [hres₁]
    exact if_pos rfl
  obtain ⟨call, s₂, hstep₂, hptr, hinode₂, hdir₂, hreg₂, hres₂, hibit₂, hused₂⟩ :=
    htidy₁.fill hj (hgrown.new_isReg.mpr rfl)
  have hvalid : ∀ {q k}, s.vol.resolve q = some k → s.vol.Valid k :=
    fun hq => Vol.resolve_valid htidy.good.rooted hq
  have hne : ∀ {q k}, s.vol.resolve q = some k → k ≠ j := by
    rintro q k hq rfl
    exact hgrown.invalid (hvalid hq)
  -- a path that was there resolves as before
  have hold : ∀ {q k}, s.vol.resolve q = some k → s₂.vol.resolve q = some k := by
    intro q k hq
    rw [hres₂, hres₁, if_neg, hq]
    rintro rfl
    exact absurd (hq.symm.trans (h.fresh m le_rfl hm)) (by simp)
  have hdirs : ∀ {q k}, s.vol.resolve q = some k → (s₂.vol.inode k).isDir = (s.vol.inode k).isDir :=
    fun hq => by rw [hdir₂, hgrown.isDir_eq _ (hne hq)]
  -- what a directory has used up
  have hused : ∀ {q k}, s.vol.resolve q = some k → (s.vol.inode k).isDir = true →
      s₂.vol.used k ≤ s.vol.used k + if s.vol.resolve (fileDir m) = some k then 1 else 0 := by
    intro q k hq hk
    rw [hused₂ k ((hgrown.valid_iff k (hne hq)).mpr (hvalid hq))
      (by rw [hgrown.isDir_eq k (hne hq), hk])]
    exact hcost k (hvalid hq)
  refine ⟨s₂, (h.reachable.step hstep₁).step hstep₂, ⟨d, hold hd, ?_, ?_⟩, ?_, ?_, ?_,
    insert j A, ?_, ?_⟩
  · rw [hdirs hd, hdir]
  · have hle := hused hd hdir
    split at hle
    · next hpar =>
      -- only a file of the second half goes to `/d`
      have hpath := htidy.named.resolve_inj htidy.good.rooted hpar hd
      unfold fileDir at hpath
      split at hpath
      · exact absurd hpath (by decide)
      · omega
    · omega
  · have hle := hused (q := []) rfl htidy.good.rooted.isDir
    split at hle <;> omega
  · rw [hibit₂]
    omega
  · intro k hmk hk
    have hnew : fileComps k ≠ fileDir m ++ [fileName (m % 300)] := fun heq => by
      have := fileComps_inj hk hm heq
      omega
    rw [hres₂, hres₁, if_neg hnew]
    exact h.fresh k (by omega) hk
  · rw [Finset.card_insert_of_notMem, hcard]
    intro hjA
    obtain ⟨⟨p, hp⟩, -⟩ := hA j hjA
    exact hne hp rfl
  · intro k hk
    rcases Finset.mem_insert.mp hk with rfl | hk
    · exact ⟨⟨filePath m, by rw [hres₂, hj]⟩, hreg₂, hptr⟩
    · obtain ⟨⟨p, hp⟩, hreg, hset⟩ := hA k hk
      have hkd : (s.vol.inode k).isDir = false := by
        by_contra hk'
        rw [Inode.isReg_of_isDir (by simpa using hk')] at hreg
        exact absurd hreg (by decide)
      have hsame : s₂.vol.inode k = s.vol.inode k := by
        rw [hinode₂ k (hne hp), hkeep k (hvalid hp) hkd]
      refine ⟨⟨p, hold hp⟩, by rw [hsame, hreg], fun n hn => ?_⟩
      rw [Vol.ptr, hsame]
      exact hset n hn

theorem filled_all {m : ℕ} (hm : m ≤ 600) : ∃ s, Filled m s := by
  induction m with
  | zero => exact filled_zero
  | succ m ih =>
    obtain ⟨s, hs⟩ := ih (by omega)
    exact filled_step hs (by omega)

/-- Blocks have one owner each, so one of the blocks is behind the device. -/
theorem Filled.exists_behind {m : ℕ} {s : Fs} (h : Filled m s) (hm : deviceBlocks < m * numPtrs) :
    ∃ (p : TreePath) (i k : ℕ), s.vol.resolve p.comps = some i ∧ (s.vol.inode i).isReg = true ∧
      k < numPtrs ∧ deviceBlocks ≤ s.vol.ptr i k := by
  obtain ⟨A, hcard, hA⟩ := h.files
  have hgood := (treeSystem_tidy h.reachable).good
  -- the files fill more blocks than the device has, and no block twice
  have hv : ∀ i ∈ A, s.vol.Valid i := fun i hi => by
    obtain ⟨⟨p, hp⟩, -⟩ := hA i hi
    exact Vol.resolve_valid hgood.rooted hp
  by_contra hall
  have hmaps : ∀ x ∈ A ×ˢ Finset.range numPtrs, s.vol.ptr x.1 x.2 ∈ Finset.range deviceBlocks := by
    intro x hx
    obtain ⟨hi, hk⟩ := Finset.mem_product.mp hx
    obtain ⟨⟨p, hp⟩, hreg, -⟩ := hA x.1 hi
    rw [Finset.mem_range] at hk ⊢
    by_contra hle
    exact hall ⟨p, x.1, x.2, hp, hreg, hk, not_lt.mp hle⟩
  have hlt : (Finset.range deviceBlocks).card < (A ×ˢ Finset.range numPtrs).card := by
    rwa [Finset.card_range, Finset.card_product, Finset.card_range, hcard]
  -- so two pointers would be equal
  obtain ⟨x, hx, y, hy, hne, heq⟩ := Finset.exists_ne_map_eq_of_card_lt_of_maps_to hlt hmaps
  obtain ⟨hxi, hxk⟩ := Finset.mem_product.mp hx
  obtain ⟨hyi, hyk⟩ := Finset.mem_product.mp hy
  rw [Finset.mem_range] at hxk hyk
  obtain ⟨h₁, h₂⟩ := hgood.owned.ptr_inj x.1 x.2 y.1 y.2 (hv _ hxi) (hv _ hyi) hxk hyk
    ((hA _ hxi).2.2 _ hxk) heq
  exact hne (Prod.ext h₁ h₂)

/-- A write reads the block it goes to. -/
theorem writeLoop_reads {s : Fs} {buffer : Bytes} {size n k off : ℕ} {file : Inode}
    (hsize : 0 < size) (hp : file.directPtr k ≠ 0) :
    .read (file.directPtr k) ∈ (writeLoop buffer size (n + 1) k s file off 0).2.2 := by
  rw [writeLoop, if_pos hsize]
  unfold ensureBlk
  rw [if_neg hp]
  exact List.mem_append_right _ List.mem_cons_self

theorem rufsWrite_reads {s s' : Fs} {path : CPath} {buffer : Bytes} {k : ℕ} {env : Env}
    {r : ℤ} {e : List Event} {file : Inode} (hfile : (getNodeByPath s path.bytes 0).1 = some file)
    (hreg : file.isReg = true) (hk : k < numPtrs) (hp : file.directPtr k ≠ 0)
    (h : rufsWrite s path.bytes buffer 1 (k * blockSize) env = some (r, s', e)) :
    .read (file.directPtr k) ∈ e := by
  -- the loop begins at block `k`
  have hstart : k * blockSize / blockSize % 2 ^ 32 = k := by
    rw [Nat.mul_div_cancel _ (by decide)]
    exact Nat.mod_eq_of_lt (by unfold numPtrs at hk; omega)
  obtain ⟨n, hn⟩ : ∃ n, numPtrs - k = n + 1 := ⟨numPtrs - k - 1, by omega⟩
  unfold rufsWrite at h
  rcases hg : getNodeByPath s path.bytes 0 with ⟨_ | file', e₀⟩
  · rw [hg] at hfile
    exact absurd hfile (by simp)
  rw [hg] at h hfile
  obtain rfl := Option.some.inj hfile
  -- `rufs_write` reads the block before it stores the byte
  have hmem : .read (file'.directPtr k) ∈
      (writeLoop buffer 1 (n + 1) k s file' (k * blockSize % blockSize) 0).2.2 :=
    writeLoop_reads (by decide) hp
  dsimp only at h
  rw [if_neg (by simp [hreg]), hstart, if_neg (by unfold numPtrs at hk; omega), hn] at h
  rcases hl : writeLoop buffer 1 (n + 1) k s file' (k * blockSize % blockSize) 0
    with ⟨_ | ⟨file, w⟩, s₁, e₁⟩
  · rw [hl] at h hmem
    have he := congrArg (fun x => x.2.2) (Option.some.inj h)
    change e₀ ++ e₁ = e at he
    rw [← he]
    exact List.mem_append_right _ hmem
  · rw [hl] at h hmem
    have he := congrArg (fun x => x.2.2) (Option.some.inj h)
    change e₀ ++ e₁ ++ _ = e at he
    rw [← he]
    exact List.mem_append_left _ (List.mem_append_right _ hmem)

/-- **A run that leaves the device.** -/
theorem access_behind_device :
    ¬ ∀ (cs : List Call) (s : Fs), Run system cs s → ∀ c ∈ cs, ∀ e ∈ c.events, OnDevice e := by
  intro hall
  -- a run that has filled 600 files
  obtain ⟨s, hs⟩ := filled_all (m := 600) le_rfl
  have hgood := (treeSystem_tidy hs.reachable).good
  obtain ⟨p, i, k, hres, hreg, hk, hle⟩ := hs.exists_behind (by decide)
  obtain ⟨cs, hrun⟩ := hs.reachable
  have hoff : k * blockSize < 2 ^ 43 := by
    unfold numPtrs at hk
    unfold blockSize
    omega
  obtain ⟨r, s', e, hw⟩ := rufsWrite_isSome s p.toCPath.bytes (fun _ => 1) 1 zeroEnv hoff
  have hnode : (getNodeByPath s p.toCPath.bytes 0).1 = some (s.vol.inode i) := by
    rw [(hgood.lookup p.toCPath).1, p.tokens_bytes, hres]
    rfl
  have hread := rufsWrite_reads hnode hreg hk (by
    have : 0 < deviceBlocks := by decide
    exact fun h0 => by rw [Vol.ptr, h0] at hle; omega) hw
  have hoffset : (UInt64.ofNat (k * blockSize)).toNat = k * blockSize := by
    rw [UInt64.toNat_ofNat']
    exact Nat.mod_eq_of_lt (by omega)
  -- one more write, into the block behind the device
  have hstep : system.step s ⟨.write p.toCPath (fun _ => 1) 1 (UInt64.ofNat (k * blockSize))
      zeroEnv, .code r, e⟩ s' := by
    change (rufsWrite s p.toCPath.bytes (fun _ => 1) 1 (UInt64.ofNat (k * blockSize)).toNat
      zeroEnv).map _ = _
    rw [hoffset, hw]
    rfl
  have hon := hall _ _ (hrun.of_restrict.step hstep) _ (List.mem_append_right _
    (List.mem_singleton.mpr rfl)) _ hread
  exact absurd hon (not_lt.mpr hle)

end Rufs
