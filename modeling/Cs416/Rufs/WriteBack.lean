import Cs416.Rufs.Safety
import Cs416.Rufs.TreeRefinement

/-!
# Writing and reading back

`write_then_read` puts the two loops together: in every reachable file system a write to a
regular file that fits is complete, the read that follows returns the bytes, and nothing else
on the volume changed. It is stated with what `readi`, `get_node_by_path` and the direct
pointers show, not with the volume.
-/

open ByteMem Scan Lts

namespace Rufs

/-- The content byte of a file at position `p`: the byte in the block of the direct pointer,
and `0` when that is not set. -/
def fileByte (s : Fs) (n : Inode) (p : ℕ) : UInt8 :=
  if n.directPtr (p / blockSize) = 0 then 0
  else s.disk (n.directPtr (p / blockSize)) (p % blockSize)

/-- What a write of `size` bytes of `buffer` at `offset` to `file` did. -/
structure WroteBack (s s' : Fs) (path : CPath) (file : Inode) (buffer : Bytes)
    (size offset : ℕ) : Prop where
  /-- The read that follows returns the bytes. -/
  reads : ∀ out, ∃ out', (rufsRead s' path.bytes out size offset).1 = ((size : ℤ), out') ∧
    ∀ k < size, out' k = buffer k
  /-- The file has the new size, and its other bytes are the same. -/
  grows : ∃ file', (getNodeByPath s' path.bytes 0).1 = some file' ∧ file'.ino = file.ino ∧
    file'.size = max file.size (offset + size) ∧ file'.stSize = max file.stSize (offset + size) ∧
    ∀ p < maxFile, p < offset ∨ offset + size ≤ p → fileByte s' file' p = fileByte s file p
  /-- Every other inode is the same. -/
  inodes : ∀ ino, ino ≠ file.ino → (readi s' ino).1 = (readi s ino).1
  /-- So are the content of every other file and directory, and the entries of the latter. -/
  bytes : ∀ ino n, (readi s ino).1 = some n → ino ≠ file.ino →
    ∀ p < maxFile, fileByte s' n p = fileByte s n p
  entries : ∀ ino n, (readi s ino).1 = some n → n.isDir = true → entries s' n = entries s n

section WriteThenRead

variable {N : ℕ} {s s' : Fs} {path : CPath} {buffer : Bytes} {size offset i : ℕ} {env : Env}
  {n : Inode}

theorem fileByte_eq (hp : ∀ k < numPtrs, n.directPtr k ≠ 0 → 67 ≤ n.directPtr k) {p : ℕ}
    (hlt : p < maxFile) : fileByte s n p = content s.vol n p := by
  unfold fileByte content
  split
  · rfl
  · next h0 => rw [Fs.vol_data (hp _ (div_blockSize_lt hlt) h0)]

/-- The loop of `rufs_readdir` looks at the blocks of the directory. -/
theorem readdirFrom_congr {dir : Inode}
    (h : ∀ k < numPtrs, dir.directPtr k ≠ 0 → s'.disk (dir.directPtr k) = s.disk (dir.directPtr k))
    (m i : ℕ) (hi : i + m ≤ numPtrs) : (readdirFrom s' dir m i).1 = (readdirFrom s dir m i).1 := by
  induction m generalizing i with
  | zero => rfl
  | succ m ih =>
    have hrest := ih (i + 1) (by omega)
    rw [readdirFrom, readdirFrom]
    by_cases h0 : dir.directPtr i = 0
    · rw [if_pos h0, if_pos h0, hrest]
    · rw [if_neg h0, if_neg h0, h i (by omega) h0, hrest]

/-- Below the largest offset `rufs_write` has a result. -/
theorem rufsWrite_isSome (s : Fs) (path : List UInt8) (buffer : Bytes) (size : ℕ) (env : Env)
    (h : offset < 2 ^ 43) : ∃ r s' e, rufsWrite s path buffer size offset env = some (r, s', e) := by
  have hsmall : ¬ (offset / blockSize % 2 ^ 32 ≥ 2 ^ 31 ∧ 0 < size) := by
    unfold blockSize
    omega
  unfold rufsWrite
  rcases getNodeByPath s path 0 with ⟨_ | file, e₀⟩
  · exact ⟨_, _, _, rfl⟩
  dsimp only
  by_cases hreg : file.isReg = false
  · rw [if_pos hreg]
    exact ⟨_, _, _, rfl⟩
  rw [if_neg hreg, if_neg hsmall]
  rcases writeLoop buffer size (numPtrs - offset / blockSize % 2 ^ 32)
    (offset / blockSize % 2 ^ 32) s file (offset % blockSize) 0 with ⟨_ | ⟨m, w⟩, s₁, e₁⟩ <;>
  exact ⟨_, _, _, rfl⟩

/-- `rufs_read` where the pointers are set. -/
theorem rufsRead_spec (h : Good N s) {f : ℕ} (hres : s.vol.resolve (tokens path.bytes) = some f)
    (hreg : (s.vol.inode f).isReg = true) (hsize : 0 < size)
    (hend : offset + size ≤ (s.vol.inode f).size) (hfit : offset + size ≤ maxFile)
    (hset : ∀ p, offset ≤ p → p < offset + size → s.vol.ptr f (p / blockSize) ≠ 0) (out : Bytes) :
    (rufsRead s path.bytes out size offset).1 = ((size : ℤ),
      memcpy out 0 (fun k => content s.vol (s.vol.inode f) (offset + k)) size) := by
  have hv := Vol.resolve_valid h.rooted hres
  have hnode := (h.lookup path).1
  rw [hres] at hnode
  unfold rufsRead
  rcases hg : getNodeByPath s path.bytes 0 with ⟨_ | file, e⟩
  · rw [hg] at hnode
    exact absurd hnode (by simp)
  rw [hg] at hnode
  obtain rfl : file = s.vol.inode f := by simpa using hnode
  -- the sum does not wrap around, and the size of the file does not clamp it
  have hmod : (offset + size) % 2 ^ 64 = offset + size := Nat.mod_eq_of_lt (by
    unfold maxFile numPtrs blockSize at hfit
    omega)
  have hpos : offset / blockSize * blockSize + offset % blockSize = offset := by
    rw [Nat.mul_comm]
    exact Nat.div_add_mod offset blockSize
  have hstart : offset / blockSize < numPtrs := div_blockSize_lt (by omega)
  -- the blocks from the first one on hold what is read
  have hroom : size - 0 ≤ (numPtrs - offset / blockSize) * blockSize - offset % blockSize := by
    rw [Nat.sub_mul]
    unfold maxFile at hfit
    omega
  dsimp only
  rw [if_neg (by simp [hreg]), if_neg (by omega), hmod, if_neg (by omega),
    readLoop_spec (fun k hk hp => h.owned.ptr_ge hv hk hp) _ _ _ 0 out
      (Nat.add_sub_cancel' hstart.le) (Nat.mod_lt _ (by decide)) (by rwa [hpos]) hroom
      (Nat.zero_le _), hpos, Nat.sub_zero]

/-- **A write that fits is complete and changes nothing else**, and a read returns what was
written. -/
theorem Good.writes_read_back (h : Good maxDnum s) {file : Inode}
    (hfile : (getNodeByPath s path.bytes 0).1 = some file) (hreg : file.isReg = true)
    (hsize : 0 < size) (hfit : offset + size ≤ maxFile) :
    ∃ s' e, rufsWrite s path.bytes buffer size offset env = some ((size : ℤ), s', e) ∧
      WroteBack s s' path file buffer size offset := by
  have hoff : offset < 2 ^ 43 := by
    unfold maxFile numPtrs blockSize at hfit
    omega
  obtain ⟨r, s', e, hw⟩ := rufsWrite_isSome s path.bytes buffer size env hoff
  rw [(h.lookup path).1] at hfile
  obtain ⟨f, hres, rfl⟩ := Option.map_eq_some_iff.mp hfile
  have hv := Vol.resolve_valid h.rooted hres
  obtain ⟨hm, -, ⟨-, -, hno⟩ | ⟨f', len, hres', -, rfl, hlen, hwr⟩⟩ :=
    rufsWrite_spec h.mounted h.owned h.rooted h.charged hw (.inl rfl)
  · rw [hno f hres] at hreg
    exact absurd hreg (by decide)
  rw [hres] at hres'
  obtain rfl := Option.some.inj hres'
  rw [writePos_eq hoff] at hlen hwr
  obtain rfl : len = size := by omega
  obtain ⟨ho', hc'⟩ := hwr.keeps
  have hgood' : Good maxDnum s' :=
    ⟨hm, ho', hwr.rooted h.rooted, hc', hwr.sizes h.sizes⟩
  -- paths resolve as before, since the file is no directory
  have hsame : s'.vol.resolve (tokens path.bytes) = some f := by
    rw [Vol.resolve_congr h.rooted hwr.valid_iff (fun i _ => hwr.isDir i)
      fun i c hi hd => hwr.lookup hreg hi hd c, hres]
  have hino : (s.vol.inode f).ino = f := h.owned.ino_self f hv
  have hend : (offset + len) % 2 ^ 32 = offset + len := Nat.mod_eq_of_lt (by
    unfold maxFile numPtrs blockSize at hfit
    omega)
  have hsz : (s'.vol.inode f).size = max (s.vol.inode f).size (offset + len) := by
    rw [hwr.size.1, hend]
    split <;> omega
  have hst : (s'.vol.inode f).stSize = max (s.vol.inode f).stSize (offset + len) := by
    rw [hwr.size.2, hend, h.sizes f hv hreg]
    split <;> omega
  have hreg' : (s'.vol.inode f).isReg = true := by
    rw [← hreg, Inode.isReg, Inode.isReg, hwr.stMode]
  have hv' : s'.vol.Valid f := (hwr.valid_iff f).mpr hv
  -- the blocks of the other inodes
  have hother : ∀ i, s.vol.Valid i → i ≠ f → ∀ k < numPtrs, s.vol.ptr i k ≠ 0 →
      s'.disk (s.vol.ptr i k) = s.disk (s.vol.ptr i k) := by
    intro i hi hne k hk hp
    have hge := h.owned.ptr_ge hi hk hp
    have hdata := hwr.others hne hi hk hp
    rwa [Fs.vol_data hge, Fs.vol_data hge] at hdata
  refine ⟨s', e, hw, ⟨?_, ?_, ?_, ?_, ?_⟩⟩
  · intro out
    refine ⟨_, rufsRead_spec hgood' hsame hreg' hsize (by omega) hfit
      (fun p hl hu => hwr.ptr_set hfit hl hu) out, fun k hk => ?_⟩
    rw [memcpy_apply _ (Nat.zero_le _) (by omega), hwr.content (by omega),
      if_pos ⟨by omega, by omega⟩]
    congr 1
    omega
  · refine ⟨s'.vol.inode f, ?_, ?_, hsz, hst, ?_⟩
    · rw [(hgood'.lookup path).1, hsame]
      rfl
    · rw [hwr.self.2.2]
    · intro p hp hout
      rw [fileByte_eq (fun k hk hp => ho'.ptr_ge hv' hk hp) hp, hwr.content hp, if_neg (by omega),
        fileByte_eq (fun k hk hp => h.owned.ptr_ge hv hk hp) hp]
  · intro i hne
    rw [hino] at hne
    rw [readi_eq hm, readi_eq h.mounted, hwr.inode_of_ne hne]
  · intro i n hn hne p hp
    rw [hino] at hne
    obtain ⟨hi, rfl⟩ := (readi_eq_some h.mounted).mp hn
    unfold fileByte
    split
    · rfl
    · next h0 => rw [hother i hi hne _ (div_blockSize_lt hp) h0]
  · intro i n hn hd
    obtain ⟨hi, rfl⟩ := (readi_eq_some h.mounted).mp hn
    have hne : i ≠ f := by
      rintro rfl
      rw [Inode.isReg_of_isDir hd] at hreg
      exact absurd hreg (by decide)
    exact readdirFrom_congr (fun k hk hp => hother i hi hne k hk hp) _ _ le_rfl

end WriteThenRead

/-- **Write then read.** In every reachable file system a write that fits returns its size, the
read that follows returns the bytes, and everything else stays as it was. -/
theorem write_then_read {s : Fs} (h : Reachable system s) {path : CPath} {file : Inode}
    (hfile : (getNodeByPath s path.bytes 0).1 = some file) (hreg : file.isReg = true)
    {size offset : ℕ} (hsize : 0 < size) (hfit : offset + size ≤ 16 * blockSize)
    (buffer : Bytes) (env : Env) :
    ∃ s' e, rufsWrite s path.bytes buffer size offset env = some ((size : ℤ), s', e) ∧
      WroteBack s s' path file buffer size offset :=
  (reachable_good h).writes_read_back hfile hreg hsize hfit

/-- The file system after `create("/a")`. -/
def firstFile : Fs := (rufsCreate freshFs pathA.bytes 0o644 ⟨0, 0, 0, 0⟩).2.1

theorem firstFile_reachable : Reachable system firstFile := by
  have hstart : Reachable system freshFs := .start freshFs_init
  have hstep : system.step freshFs ⟨.create pathA 0o644 ⟨0, 0, 0, 0⟩, _, _⟩ firstFile := rfl
  exact hstart.step hstep

/-- `/a` is a regular file then. -/
theorem firstFile_node : ∃ file, (getNodeByPath firstFile pathA.bytes 0).1 = some file ∧
    file.isReg = true := by
  have hmap : ((getNodeByPath firstFile pathA.bytes 0).1.map Inode.isReg) = some true := by
    decide +kernel
  exact Option.map_eq_some_iff.mp hmap

theorem write_then_read_first : ∃ file, (getNodeByPath firstFile pathA.bytes 0).1 = some file ∧
    ∃ s' e, rufsWrite firstFile pathA.bytes (fun _ => 1) 5000 100 ⟨0, 0, 0, 0⟩
        = some (5000, s', e) ∧
      WroteBack firstFile s' pathA file (fun _ => 1) 5000 100 := by
  obtain ⟨file, hfile, hreg⟩ := firstFile_node
  exact ⟨file, hfile, write_then_read firstFile_reachable hfile hreg (by decide) (by decide) _ _⟩

end Rufs
