import Cs416.Rufs.WriteBack

/-!
# Reading files with holes

`rufs_write` allocates the blocks it writes to, so a file may have unset pointers before its
end, and their bytes read as zero in `content`. `rufs_read` stops at the first unset pointer.
`read_complete_iff` says when it still delivers every byte that is there to read.

What was last written to a file is recorded beside the file system, by inode number: `record`
copies the bytes that a `rufs_write` reports as written. The invariant `Recorded` says that the
record of a regular file is its content.
-/

open ByteMem Scan Lts

namespace Rufs

/-! ### The record of the writes -/

/-- A write ends inside the direct blocks. -/
def WriteFits : Op → Prop
  | .write _ _ size offset _ => offset.toNat + size.toNat ≤ 16 * blockSize
  | _ => True

/-- The record after a call on `s`. A call that fails has written nothing. -/
def record (w : ℕ → Bytes) (s : Fs) (c : Call) : ℕ → Bytes :=
  match c.op, c.result with
  | .write path buffer _ offset _, .code r =>
    match (getNodeByPath s path.bytes 0).1 with
    | some file => Function.update w file.ino (memcpy (w file.ino) offset.toNat buffer r.toNat)
    | none => w
  | _, _ => w

/-- The runs in which every write fits. -/
def fittingSystem : System Fs Call := system.restrict fun _ c => WriteFits c.op

/-- These runs with the record of what was written, which starts as zeros. -/
def recordedSystem : System (Fs × (ℕ → Bytes)) Call where
  init x := fittingSystem.init x.1 ∧ x.2 = fun _ _ => 0
  step x c x' := fittingSystem.step x.1 c x'.1 ∧ x'.2 = record x.2 x.1 c

/-- Every file system that such a run reaches has a record. -/
theorem exists_record {s : Fs} (h : Reachable fittingSystem s) :
    ∃ w, Reachable recordedSystem (s, w) := by
  refine h.invariant (I := fun s => ∃ w, Reachable recordedSystem (s, w)) ?_ ?_
  · exact fun s h0 => ⟨_, .start ⟨h0, rfl⟩⟩
  · rintro s c s' ⟨w, hr⟩ hs
    exact ⟨record w s c, hr.step (l := c) ⟨hs, rfl⟩⟩

/-! ### What a call does to the files -/

section Files

variable {N : ℕ} {v v' : Vol} {kind : Kind} {mode f : ℕ} {P : List Name} {c : Name} {ok : Bool}

/-- Between two volumes, file `f` is the same or a new one with nothing in it. -/
structure FileKept (v v' : Vol) (f : ℕ) : Prop where
  old : v.Valid f → (v'.inode f).isReg = (v.inode f).isReg ∧
    (v'.inode f).size = (v.inode f).size ∧ ∀ p < maxFile, content v' (v'.inode f) p = content v (v.inode f) p
  new : ¬ v.Valid f → (v'.inode f).size = 0 ∧ ∀ p < maxFile, content v' (v'.inode f) p = 0

theorem fileKept_of_unchanged (hi : v'.inode = v.inode) (hd : v'.data = v.data)
    (hf : v'.Valid f) : FileKept v v' f where
  old _ := by
    rw [hi]
    exact ⟨rfl, rfl, fun p _ => content_congr rfl fun _ => by rw [hd]⟩
  new hnew := absurd hf (by rwa [Vol.Valid, hi])

/-- `mkdir` and `create` keep the files there are, and a new inode has no data. -/
theorem MakeOutcome.fileKept (h : MakeOutcome N v kind mode P c ok v') (ho : Owned N v)
    (hr : v.Rooted) (hf : v'.Valid f) (hreg : (v'.inode f).isReg = true) : FileKept v v' f := by
  have hmade : ∀ {i j b m : ℕ} {n : Inode} {v₁ v₂ : Vol}, v₂.inode = v₁.inode → v₂.data = v₁.data →
      Entered N v P c i j v₁ → IsNew j m b n → (b = 0 ∨ v₁.data b = zeroBlock) →
      (v₂.setInode j n).Valid f → ((v₂.setInode j n).inode f).isReg = true →
      FileKept v (v₂.setInode j n) f := by
    intro i j b m n v₁ v₂ hinode hdata hent hn hb hf hreg
    have hinv := hent.new_invalid ho
    have hvi := hent.parent_valid hr
    by_cases hfj : f = j
    · subst hfj
      have hself := v₂.setInode_self f n
      refine ⟨fun hold => absurd hold hinv, fun _ => ⟨by rw [hself, hn.norm.size], fun p hp => ?_⟩⟩
      unfold content
      split
      · rfl
      · next h0 =>
        rw [hself] at h0 ⊢
        have hk0 : p / blockSize = 0 := by
          by_contra hk0
          exact h0 (hn.norm.ptr_succ _ (div_blockSize_lt hp) hk0)
        rw [hk0, hn.norm.ptr_zero] at h0 ⊢
        rw [Vol.setInode_data, hdata, hb.resolve_left h0]
        rfl
    · have hsame : (v₂.setInode j n).inode f = v₁.inode f := by
        rw [v₂.setInode_of_ne hfj, hinode]
      -- a regular file is not the parent
      have hfi : f ≠ i := by
        rintro rfl
        rw [hsame, Inode.isReg_of_isDir ((hent.added.isDir f).trans hent.isDir)] at hreg
        exact absurd hreg (by decide)
      have hold : v₁.inode f = v.inode f := hent.added.inode_of_ne hfi
      rw [Vol.Valid, hsame, hold] at hf
      refine ⟨fun _ => ?_, fun hnew => absurd hf hnew⟩
      rw [hsame, hold]
      refine ⟨rfl, rfl, fun p hp => content_congr rfl fun h0 => ?_⟩
      rw [Vol.setInode_data, hdata]
      exact hent.added.data_of_ne (ho.markIno j) hvi hfi hf (div_blockSize_lt hp) h0
  cases h with
  | failed _ hout => exact fileKept_of_unchanged hout.failed_unchanged.1 hout.failed_unchanged.2 hf
  | madeDir i j b n v₁ _ hout hbN hbd hbit hn =>
    have hent := hout.entered'
    have hzero := (hent.owned ho hr).free_zero b hbd hbit
    exact hmade (v₁.markBlk_inode b) (v₁.markBlk_data b) hent hn (.inr hzero) hf hreg
  | madeFile i j n v₁ _ hout hn => exact hmade rfl rfl hout.entered' hn (.inl rfl) hf hreg

theorem MakeOutcome.valid_mono (h : MakeOutcome N v kind mode P c ok v') (hf : v.Valid f) :
    v'.Valid f := by
  have hmade : ∀ {i j b m : ℕ} {n : Inode} {v₁ v₂ : Vol}, v₂.inode = v₁.inode →
      Entered N v P c i j v₁ → IsNew j m b n → (v₂.setInode j n).Valid f := by
    intro i j b m n v₁ v₂ hinode hent hn
    by_cases hfj : f = j
    · rw [hfj, Vol.Valid, Vol.setInode_self]
      exact hn.norm.valid_ne
    · rw [Vol.Valid, v₂.setInode_of_ne hfj, hinode]
      exact (hent.valid_iff f).mpr hf
  cases h with
  | failed _ hout =>
    rw [Vol.Valid, hout.failed_unchanged.1]
    exact hf
  | madeDir i j b n v₁ _ hout _ _ _ hn => exact hmade (v₁.markBlk_inode b) hout.entered' hn
  | madeFile i j n v₁ _ hout hn => exact hmade rfl hout.entered' hn

end Files

/-! ### The invariant -/

/-- **The record of a regular file is its content.** -/
structure Recorded (s : Fs) (w : ℕ → Bytes) : Prop where
  good : Good maxDnum s
  /-- The end of a file lies inside the direct blocks. -/
  size : ∀ i, s.vol.Valid i → (s.vol.inode i).isReg = true → (s.vol.inode i).size ≤ maxFile
  content : ∀ i, s.vol.Valid i → (s.vol.inode i).isReg = true → ∀ p < maxFile,
    content s.vol (s.vol.inode i) p = w i p
  /-- Nothing was written to an inode that is not in use. -/
  fresh : ∀ i, ¬ s.vol.Valid i → w i = fun _ => 0

section Step

variable {s s' : Fs} {w : ℕ → Bytes} {kind : Kind} {mode : ℕ} {P : List Name} {c : Name} {ok : Bool}

theorem Recorded.make (h : Recorded s w) (hgood : Good maxDnum s')
    (hout : MakeOutcome maxDnum s.vol kind mode P c ok s'.vol) : Recorded s' w where
  good := hgood
  size i hi hreg := by
    have hkept := hout.fileKept h.good.owned h.good.rooted hi hreg
    by_cases hold : s.vol.Valid i
    · obtain ⟨hreg', hsize, -⟩ := hkept.old hold
      rw [hsize]
      exact h.size i hold (hreg'.symm.trans hreg)
    · rw [(hkept.new hold).1]
      exact Nat.zero_le _
  content i hi hreg p hp := by
    have hkept := hout.fileKept h.good.owned h.good.rooted hi hreg
    by_cases hold : s.vol.Valid i
    · obtain ⟨hreg', -, hcont⟩ := hkept.old hold
      rw [hcont p hp]
      exact h.content i hold (hreg'.symm.trans hreg) p hp
    · rw [(hkept.new hold).2 p hp, h.fresh i hold]
  fresh i hi := h.fresh i fun hold => hi (hout.valid_mono hold)

/-- A write to file `f`. -/
theorem Recorded.write (h : Recorded s w) (hgood : Good maxDnum s') {f offset len now : ℕ}
    {buffer : Bytes} (hf : s.vol.Valid f) (hfit : offset + len ≤ maxFile)
    (hwr : Written maxDnum s.vol f offset len (offset + len) now buffer s'.vol) :
    Recorded s' (Function.update w f (memcpy (w f) offset buffer len)) where
  good := hgood
  size i hi hreg := by
    have hold := (hwr.valid_iff i).mp hi
    rw [Inode.isReg, hwr.stMode] at hreg
    -- the file written grows to the end of the write, the others keep their size
    by_cases hif : i = f
    · subst hif
      have hsize := h.size i hold hreg
      have hend : (offset + len) % 2 ^ 32 ≤ offset + len := Nat.mod_le _ _
      rw [hwr.size.1]
      split <;> omega
    · rw [hwr.inode_of_ne hif]
      exact h.size i hold hreg
  content i hi hreg p hp := by
    have hold := (hwr.valid_iff i).mp hi
    rw [Inode.isReg, hwr.stMode] at hreg
    have hcont := h.content i hold hreg p hp
    -- its content is the old one with the buffer copied in
    by_cases hif : i = f
    · subst hif
      rw [hwr.content hp, hcont, Function.update_self]
      rfl
    · rw [Function.update_of_ne hif, ← hcont, hwr.inode_of_ne hif]
      exact content_congr rfl fun h0 => hwr.others hif hold (div_blockSize_lt hp) h0
  fresh i hi := by
    have hold : ¬ s.vol.Valid i := fun hold => hi ((hwr.valid_iff i).mpr hold)
    have hif : i ≠ f := by
      rintro rfl
      exact hold hf
    rw [Function.update_of_ne hif, h.fresh i hold]

/-- **The step lemma.** -/
theorem recorded_step {call : Call} (h : Recorded s w) (hs : fittingSystem.step s call s') :
    Recorded s' (record w s call) := by
  obtain ⟨hs, hop⟩ := hs
  obtain ⟨op, result, e⟩ := call
  have happ : apply s op = some (result, s', e) := hs
  have hgood := (apply_good_max h.good happ).1
  cases op with
  | mkdir path mode env =>
    have had : Admits maxDnum (rufsMkdir s path.bytes mode.toNat env).2.2 := .inl rfl
    obtain ⟨r, s₁, e₁, ok, hmk, -, -, -, hout⟩ := rufsMkdir_spec h.good.mounted h.good.owned
      h.good.rooted h.good.charged (uint32_lt mode) had
    obtain ⟨-, heq⟩ : _ ∧ (rufsMkdir s path.bytes mode.toNat env).2 = (s', e) := by
      simpa [apply] using happ
    rw [hmk] at heq
    obtain ⟨rfl, rfl⟩ := Prod.mk.inj heq
    exact h.make hgood hout
  | create path mode env =>
    have had : Admits maxDnum (rufsCreate s path.bytes mode.toNat env).2.2 := .inl rfl
    obtain ⟨r, s₁, e₁, ok, hmk, -, -, -, hout⟩ := rufsCreate_spec h.good.mounted h.good.owned
      h.good.rooted h.good.charged (uint32_lt mode) had
    obtain ⟨-, heq⟩ : _ ∧ (rufsCreate s path.bytes mode.toNat env).2 = (s', e) := by
      simpa [apply] using happ
    rw [hmk] at heq
    obtain ⟨rfl, rfl⟩ := Prod.mk.inj heq
    exact h.make hgood hout
  | write path buffer size offset env =>
    obtain ⟨⟨r, s₁, e₁⟩, hw, heq⟩ := Option.map_eq_some_iff.mp happ
    obtain ⟨rfl, rfl, rfl⟩ : Result.code r = result ∧ s₁ = s' ∧ e₁ = e := by simpa using heq
    have hfit : offset.toNat + size.toNat ≤ maxFile := hop
    have hnode := (h.good.lookup path).1
    unfold record
    obtain ⟨-, -, ⟨rfl, hneg, -⟩ | ⟨f, len, hres, -, rfl, hlen, hwr⟩⟩ := rufsWrite_spec
      h.good.mounted h.good.owned h.good.rooted h.good.charged hw (.inl rfl)
    · -- nothing was written
      dsimp only
      have hsame : Recorded s₁ w := ⟨hgood, h.size, h.content, h.fresh⟩
      split
      · rw [Int.toNat_of_nonpos hneg.le, memcpy_zero, Function.update_eq_self]
        exact hsame
      · exact hsame
    · have hoff : offset.toNat < 2 ^ 43 := by
        unfold maxFile numPtrs blockSize at hfit
        omega
      have hv := Vol.resolve_valid h.good.rooted hres
      rw [writePos_eq hoff] at hlen hwr
      dsimp only
      rw [hnode, hres]
      dsimp only [Option.map_some]
      rw [h.good.owned.ino_self f hv, Int.toNat_natCast]
      exact h.write hgood hv (by omega) hwr
  | getattr path =>
    obtain ⟨-, rfl, -⟩ : _ ∧ s = s' ∧ _ := by simpa [apply] using happ
    exact h
  | opendir path =>
    obtain ⟨-, rfl, -⟩ : _ ∧ s = s' ∧ _ := by simpa [apply] using happ
    exact h
  | readdir path =>
    obtain ⟨-, rfl, -⟩ : _ ∧ s = s' ∧ _ := by simpa [apply] using happ
    exact h
  | «open» path =>
    obtain ⟨-, rfl, -⟩ : _ ∧ s = s' ∧ _ := by simpa [apply] using happ
    exact h
  | read path buffer size offset =>
    obtain ⟨-, rfl, -⟩ : _ ∧ s = s' ∧ _ := by simpa [apply] using happ
    exact h

end Step

theorem rufsMkfs_recorded (env : Env) : Recorded (rufsMkfs env).1 fun _ _ => 0 := by
  have hgood : Good maxDnum (rufsMkfs env).1 := rufsMkfs_good (by decide) env
  -- only the root is valid, and it is a directory
  have hdir : ∀ i, (rufsMkfs env).1.vol.Valid i → ((rufsMkfs env).1.vol.inode i).isReg = false := by
    intro i hi
    by_cases h0 : i = 0
    · rw [h0]
      exact Inode.isReg_of_isDir hgood.rooted.isDir
    · rw [(rufsMkfs_spec env).2, Vol.Valid, Vol.setInode_of_ne _ h0] at hi
      exact absurd hi (blank_invalid i)
  refine ⟨hgood, fun i hi hreg => ?_, fun i hi hreg => ?_, fun _ _ => rfl⟩ <;>
  · rw [hdir i hi] at hreg
    exact absurd hreg (by decide)

/-- **The record of every run is the content of its files.** -/
theorem recordedSystem_recorded {s : Fs} {w : ℕ → Bytes} (h : Reachable recordedSystem (s, w)) :
    Recorded s w := by
  refine h.invariant (I := fun x => Recorded x.1 x.2) ?_ ?_
  · rintro ⟨s, w⟩ ⟨⟨env, rfl⟩, rfl⟩
    exact rufsMkfs_recorded env
  · rintro ⟨s, w⟩ c ⟨s', w'⟩ hrec ⟨hs, rfl⟩
    exact recorded_step hrec hs

/-! ### Reading -/

/-- The number of bytes there are to read. -/
def available (file : Inode) (size offset : ℕ) : ℕ := min size (file.size - offset)

/-- `rufs_read` delivers every byte there is to read: `bytes` are those of the file. -/
def ReadsAll (s : Fs) (path : CPath) (file : Inode) (bytes buffer : Bytes) (size offset : ℕ) : Prop :=
  ∃ out, (rufsRead s path.bytes buffer size offset).1 = ((available file size offset : ℤ), out) ∧
    ∀ k < available file size offset, out k = bytes (offset + k)

/-- Every position there is to read lies in a block that was allocated. When `offset + size`
does not fit 64 bits the size is not clamped, and the loop stops at the end of the file only if
that is the end of its last block. -/
def BlocksThere (file : Inode) (size offset : ℕ) : Prop :=
  (∀ p, offset ≤ p → p < offset + available file size offset →
    file.directPtr (p / blockSize) ≠ 0) ∧
  (offset + size < 2 ^ 64 ∨ file.size % blockSize = 0 ∧
    (file.size = maxFile ∨ file.directPtr (file.size / blockSize) = 0))

section Read

variable {N : ℕ} {s : Fs} {path : CPath} {size offset : ℕ} {file : Inode}

/-- What `rufs_read` delivers of a regular file. -/
theorem rufsRead_upTo (h : Good N s) {f : ℕ} (hres : s.vol.resolve (tokens path.bytes) = some f)
    (hreg : (s.vol.inode f).isReg = true) (hoff : offset < (s.vol.inode f).size)
    (hmax : (s.vol.inode f).size ≤ maxFile) (buffer : Bytes) :
    ∃ len, ReadsUpTo (s.vol.inode f) offset
        (if (offset + size) % 2 ^ 64 > (s.vol.inode f).size then (s.vol.inode f).size - offset
          else size) len ∧
      (rufsRead s path.bytes buffer size offset).1 = ((len : ℤ),
        memcpy buffer 0 (fun k => content s.vol (s.vol.inode f) (offset + k)) len) := by
  have hv := Vol.resolve_valid h.rooted hres
  have hnode := (h.lookup path).1
  rw [hres] at hnode
  unfold rufsRead
  rcases hg : getNodeByPath s path.bytes 0 with ⟨_ | file, e⟩
  · rw [hg] at hnode
    exact absurd hnode (by simp)
  rw [hg] at hnode
  -- the file is there and regular, so the read gets to its loop
  obtain rfl : file = s.vol.inode f := by simpa using hnode
  have hfile : ¬ (s.vol.inode f).isReg = false := by simp [hreg]
  dsimp only
  rw [if_neg hfile, if_neg (not_le.mpr hoff)]
  generalize (if (offset + size) % 2 ^ 64 > (s.vol.inode f).size then
    (s.vol.inode f).size - offset else size) = want
  have hstart : offset / blockSize < numPtrs := div_blockSize_lt (by omega)
  -- the loop begins at the block of `offset`, at the offset inside it
  have hpos : offset / blockSize * blockSize + offset % blockSize = offset := by
    rw [Nat.mul_comm]
    exact Nat.div_add_mod offset blockSize
  obtain ⟨len, hup, heq⟩ := readLoop_upTo (s := s)
    (fun k hk hp => h.owned.ptr_ge hv hk hp) _ _ _ 0 buffer (Nat.add_sub_cancel' hstart.le)
    (Nat.mod_lt offset (by decide)) (Nat.zero_le want)
  rw [hpos, Nat.sub_zero] at hup
  refine ⟨len, hup, ?_⟩
  rw [heq, hpos, Nat.zero_add]

/-- The loop delivers what there is when the blocks are there, and only then. -/
theorem ReadsUpTo.eq_available_iff {len : ℕ} (hsize : 0 < size) (hlt : size < 2 ^ 64)
    (hoff : offset < file.size) (hmax : file.size ≤ maxFile)
    (h : ReadsUpTo file offset
      (if (offset + size) % 2 ^ 64 > file.size then file.size - offset else size) len) :
    len = available file size offset ↔ BlocksThere file size offset := by
  have hmax' : file.size ≤ 65536 := hmax
  have hle := h.le
  have hstop := h.stop
  have havail : available file size offset = min size (file.size - offset) := rfl
  by_cases hwrap : offset + size < 2 ^ 64
  · -- the size is clamped to what there is
    have hwant : (if (offset + size) % 2 ^ 64 > file.size then file.size - offset else size)
        = available file size offset := by
      rw [Nat.mod_eq_of_lt hwrap, havail]
      split <;> omega
    rw [hwant] at hle hstop
    constructor
    · rintro rfl
      exact ⟨h.set, .inl hwrap⟩
    · rintro ⟨hset, -⟩
      by_contra hne
      have hless : len < available file size offset := by omega
      rcases hstop hless with hend | h0
      · rw [havail] at hless
        omega
      · exact hset _ (Nat.le_add_right _ _) (Nat.add_lt_add_left hless _) h0
  · have hmod : (offset + size) % 2 ^ 64 = offset + size - 2 ^ 64 := by omega
    rw [hmod, if_neg (by omega)] at hle hstop
    have hal := h.aligned
    rw [hmod, if_neg (by omega)] at hal
    have hrest : available file size offset = file.size - offset := by omega
    have hend : offset + available file size offset = file.size := by omega
    constructor
    · rintro rfl
      refine ⟨h.set, .inr ⟨?_, ?_⟩⟩
      · have h0 := (hal (by omega)).resolve_left (by omega)
        rwa [hend] at h0
      · have hs := hstop (by omega)
        rw [hend] at hs
        exact hs.imp_left fun hge => le_antisymm hmax hge
    · rintro ⟨hset, hcut⟩
      obtain ⟨-, hcut⟩ := hcut.resolve_left hwrap
      rcases lt_trichotomy len (available file size offset) with hless | heq | hmore
      · rcases hstop (by omega) with hge | h0
        · have hge' : 65536 ≤ offset + len := hge
          omega
        · exact absurd h0 (hset _ (Nat.le_add_right _ _) (Nat.add_lt_add_left hless _))
      · exact heq
      · -- the loop cannot pass the end of the last block
        rcases hcut with hfull | h0
        · have hfits := h.fits (by omega)
          omega
        · exact absurd h0 (h.set file.size hoff.le (by omega))

end Read

/-- **When a read of a regular file is complete**: when no hole lies between its offset and its
end. -/
theorem read_complete_iff {s : Fs} {w : ℕ → Bytes} (h : Reachable recordedSystem (s, w))
    {path : CPath} {file : Inode} (hfile : (getNodeByPath s path.bytes 0).1 = some file)
    (hreg : file.isReg = true) {size offset : UInt64} (hsize : 0 < size.toNat)
    (hoff : offset.toNat < file.size) (buffer : Bytes) :
    ReadsAll s path file (w file.ino) buffer size.toNat offset.toNat ↔
      BlocksThere file size.toNat offset.toNat := by
  have hrec := recordedSystem_recorded h
  rw [(hrec.good.lookup path).1] at hfile
  obtain ⟨f, hres, rfl⟩ := Option.map_eq_some_iff.mp hfile
  have hv := Vol.resolve_valid hrec.good.rooted hres
  have hmax := hrec.size f hv hreg
  obtain ⟨len, hup, heq⟩ := rufsRead_upTo hrec.good hres hreg hoff hmax buffer
  rw [← hup.eq_available_iff hsize size.toNat_lt hoff hmax]
  unfold ReadsAll
  rw [heq]
  constructor
  · rintro ⟨out, hout, -⟩
    exact Int.ofNat_inj.mp (congrArg Prod.fst hout)
  · intro hlen
    refine ⟨_, by rw [hlen], fun k hk => ?_⟩
    rw [memcpy_apply _ (Nat.zero_le k) (by omega), Nat.sub_zero, hrec.good.owned.ino_self f hv]
    refine hrec.content f hv hreg _ ?_
    unfold available at hk
    omega

/-- A write of one byte to `/a`, behind its first block. -/
def sparseWrite : Op := .write pathA (fun _ => 1) 1 4096 ⟨0, 0, 0, 0⟩

/-- The file system after it. -/
def sparseFs : Fs := ((apply firstFile sparseWrite).map (·.2.1)).getD firstFile

theorem sparseFs_reachable : ∃ w, Reachable recordedSystem (sparseFs, w) := by
  have hstart : Reachable fittingSystem freshFs := .start freshFs_init
  have hcreate : system.step freshFs ⟨.create pathA 0o644 ⟨0, 0, 0, 0⟩, _, _⟩ firstFile := rfl
  have hfirst : Reachable fittingSystem firstFile := hstart.step ⟨hcreate, trivial⟩
  have hfit : WriteFits sparseWrite := by
    unfold WriteFits sparseWrite
    decide
  have hsmall : (4096 : UInt64).toNat < 2 ^ 43 := by decide +kernel
  obtain ⟨r, s', e, hw⟩ := rufsWrite_isSome firstFile pathA.bytes (fun _ => 1)
    (1 : UInt64).toNat ⟨0, 0, 0, 0⟩ hsmall
  have happ : apply firstFile sparseWrite = some (.code r, s', e) := by
    unfold apply sparseWrite
    dsimp only
    rw [hw]
    rfl
  have hs : sparseFs = s' := by
    unfold sparseFs
    rw [happ]
    rfl
  rw [hs]
  exact exists_record (hfirst.step (l := ⟨sparseWrite, .code r, e⟩) ⟨happ, hfit⟩)

theorem sparseFs_node : ∃ file, (getNodeByPath sparseFs pathA.bytes 0).1 = some file ∧
    file.isReg = true ∧ file.size = 4097 := by
  have hmap : (getNodeByPath sparseFs pathA.bytes 0).1.map (fun n => (n.isReg, n.size))
      = some (true, 4097) := by decide +kernel
  obtain ⟨file, hfile, heq⟩ := Option.map_eq_some_iff.mp hmap
  exact ⟨file, hfile, congrArg Prod.fst heq, congrArg Prod.snd heq⟩

theorem read_complete_iff_sparse : ∃ w file, Reachable recordedSystem (sparseFs, w) ∧
    (getNodeByPath sparseFs pathA.bytes 0).1 = some file ∧
    (ReadsAll sparseFs pathA file (w file.ino) (fun _ => 0) 1 4096 ↔ BlocksThere file 1 4096) := by
  obtain ⟨w, hw⟩ := sparseFs_reachable
  obtain ⟨file, hfile, hreg, hsize⟩ := sparseFs_node
  have hpos : 0 < (1 : UInt64).toNat := by decide
  have hoff : (4096 : UInt64).toNat < file.size := by
    rw [hsize]
    decide
  exact ⟨w, file, hw, hfile, read_complete_iff hw hfile hreg hpos hoff _⟩

/-- **A hole ends the read.** Nothing is delivered of the first block, although the file goes on
behind it. -/
theorem hole_ends_read : ∃ w file, Reachable recordedSystem (sparseFs, w) ∧
    (getNodeByPath sparseFs pathA.bytes 0).1 = some file ∧ file.isReg = true ∧ 0 < file.size ∧
    ¬ ReadsAll sparseFs pathA file (w file.ino) (fun _ => 0) 1 0 := by
  obtain ⟨w, hw⟩ := sparseFs_reachable
  obtain ⟨file, hfile, hreg, hsize⟩ := sparseFs_node
  refine ⟨w, file, hw, hfile, hreg, by omega, ?_⟩
  rintro ⟨out, hout, -⟩
  have hzero : (rufsRead sparseFs pathA.bytes (fun _ => 0) 1 0).1.1 = 0 := by decide +kernel
  have hone : available file 1 0 = 1 := by
    unfold available
    omega
  rw [hout, hone] at hzero
  exact absurd (Int.ofNat_inj.mp hzero) one_ne_zero

end Rufs
