import Cs416.Rufs.SparseRead

/-!
# The size of a file

`rufs_write` sets the size after its loop, from the offset and the number of bytes the loop
wrote. The loop writes nothing when no bytes are asked for or when the offset lies behind the
direct blocks, and the assignment runs all the same: the file then ends at the offset.

`SizeLaw` is what the return value of a write says about the size, `KeepsSize` the condition on
a call under which it is right. `write_sizeLaw_iff` is the step lemma, in both directions, and
`size_truthful` puts it together with the invariant `Sized` over whole runs.
-/

open ByteMem Scan Lts

namespace Rufs

/-! ### The runs -/

/-- The calls considered: no offset is so large that its block number does not fit an `int`. -/
def SizeOp : Op → Prop
  | .mkdir _ _ _ => True
  | .create _ _ _ => True
  | .write _ _ _ offset _ => offset.toNat < 2 ^ 43
  | _ => False

def sizeSystem : System Fs Call := system.restrict fun _ c => SizeOp c.op

/-- The size of the file after a write agrees with the return value `n` of the write. -/
def SizeLaw (s : Fs) (c : Call) (s' : Fs) : Prop :=
  match c.op, c.result with
  | .write path _ _ offset _, .code n =>
    ∀ file, (getNodeByPath s path.bytes 0).1 = some file → 0 ≤ n →
      ∃ file', (getNodeByPath s' path.bytes 0).1 = some file' ∧ file'.ino = file.ino ∧
        (0 < n → (file'.size : ℤ) = max (file.size : ℤ) (offset.toNat + n)) ∧
        (n = 0 → file'.size = file.size)
  | _, _ => True

/-- A write of nothing does not start behind the end of the file, or the offset is truncated to
the size the file has. Nothing is written when no bytes are asked for, and when the offset lies
behind the `16` blocks. -/
def KeepsSize (s : Fs) : Op → Prop
  | .write path _ size offset _ =>
    ∀ file, (getNodeByPath s path.bytes 0).1 = some file → file.isReg = true →
      size.toNat = 0 ∨ 16 * blockSize ≤ offset.toNat →
        offset.toNat ≤ file.size ∨ offset.toNat % 2 ^ 32 = file.size
  | _ => True

/-- Every regular file ends inside its blocks, and its two size fields agree. -/
def SizesTruthful (s : Fs) : Prop :=
  ∀ ino file, (readi s ino).1 = some file → file.isReg = true →
    file.size ≤ 16 * blockSize ∧ file.stSize = file.size

/-- The runs in which every call keeps to the condition. -/
def truthfulSystem : System Fs Call := sizeSystem.restrict fun s c => KeepsSize s c.op

/-! ### One write -/

section Step

variable {s s' : Fs} {path : CPath} {buffer : Bytes} {size offset : ℕ} {env : Env} {r : ℤ}
  {e : List Event}

/-- What a write to a regular file leaves at its path. -/
theorem Good.node_after_write (h : Good maxDnum s) (hm : s'.Mounted) {f pos len endPos now : ℕ}
    (hres : s.vol.resolve (tokens path.bytes) = some f) (hreg : (s.vol.inode f).isReg = true)
    (hwr : Written maxDnum s.vol f pos len endPos now buffer s'.vol) :
    (getNodeByPath s' path.bytes 0).1 = some (s'.vol.inode f) := by
  obtain ⟨ho', hc'⟩ := hwr.keeps
  have hgood' : Good maxDnum s' := ⟨hm, ho', hwr.rooted h.rooted, hc', hwr.sizes h.sizes⟩
  rw [(hgood'.lookup path).1, Vol.resolve_congr h.rooted hwr.valid_iff (fun i _ => hwr.isDir i)
    fun i c hi hd => hwr.lookup hreg hi hd c, hres]
  rfl

/-- The loop has written nothing exactly when it had nothing to write or no block for it. -/
theorem len_eq_zero_iff {len : ℕ} (hlen : len = min size (maxFile - offset)) :
    len = 0 ↔ size = 0 ∨ 16 * blockSize ≤ offset := by
  unfold maxFile numPtrs at hlen
  omega

/-- **The return value of a write and the size of the file.** -/
theorem write_sizeLaw_iff (h : Good maxDnum s) {c : Call} (hs : sizeSystem.step s c s') :
    SizeLaw s c s' ↔ KeepsSize s c.op := by
  obtain ⟨op, result, e⟩ := c
  obtain ⟨hs, hop⟩ := hs
  have happ : apply s op = some (result, s', e) := hs
  cases op with
  | write path buffer size offset env =>
    obtain ⟨⟨r, s₁, e₁⟩, hw, heq⟩ := Option.map_eq_some_iff.mp happ
    obtain ⟨rfl, rfl, rfl⟩ : Result.code r = result ∧ s₁ = s' ∧ e₁ = e := by simpa using heq
    have hoff : offset.toNat < 2 ^ 43 := hop
    unfold SizeLaw KeepsSize
    dsimp only
    rw [(h.lookup path).1]
    obtain ⟨hm, -, ⟨-, hneg, hno⟩ | ⟨f, len, hres, hreg, rfl, hlen, hwr⟩⟩ :=
      rufsWrite_spec h.mounted h.owned h.rooted h.charged hw (.inl rfl)
    · -- an error code, and no regular file at the path
      refine iff_of_true (fun file _ hn => by omega) fun file hfile hreg _ => ?_
      obtain ⟨f, hf, rfl⟩ := Option.map_eq_some_iff.mp hfile
      rw [hno f hf] at hreg
      exact absurd hreg (by decide)
    · rw [writePos_eq hoff] at hlen hwr
      have hnode := h.node_after_write hm hres hreg hwr
      have hzero := len_eq_zero_iff hlen
      have hsize := hwr.size.1
      have hend : 0 < len → offset.toNat + len ≤ 16 * blockSize := by
        unfold maxFile numPtrs at hlen
        omega
      rw [hres]
      dsimp only [Option.map_some]
      constructor
      · rintro hlaw file hfile - hnone
        obtain ⟨file', hfile', -, -, hkept⟩ := hlaw file hfile (Int.natCast_nonneg len)
        rw [hnode] at hfile'
        obtain rfl := Option.some.inj hfile'
        obtain rfl := Option.some.inj hfile
        obtain rfl := hzero.mpr hnone
        have hsame := hkept rfl
        rw [hsize, Nat.add_zero] at hsame
        split at hsame
        · exact .inr hsame
        · exact .inl (by omega)
      · intro hkeeps file hfile _
        obtain rfl := Option.some.inj hfile
        refine ⟨_, hnode, hwr.self.2.2, fun hpos => ?_, fun h0 => ?_⟩
        · have hend' := hend (by omega)
          rw [hsize]
          split
          · rw [Nat.mod_eq_of_lt (by unfold blockSize at hend'; omega)]
            omega
          · omega
        · obtain rfl : len = 0 := by omega
          have hcases := hkeeps _ rfl hreg (hzero.mp rfl)
          rw [hsize, Nat.add_zero]
          split
          · omega
          · rfl
  | mkdir path mode env => exact iff_of_true trivial trivial
  | create path mode env => exact iff_of_true trivial trivial
  | getattr _ => exact absurd hop id
  | opendir _ => exact absurd hop id
  | readdir _ => exact absurd hop id
  | «open» _ => exact absurd hop id
  | read _ _ _ _ => exact absurd hop id

end Step

/-! ### The invariant -/

/-- The files of a good file system end inside their blocks. -/
structure Sized (s : Fs) : Prop where
  good : Good maxDnum s
  size : ∀ i, s.vol.Valid i → (s.vol.inode i).isReg = true → (s.vol.inode i).size ≤ maxFile

section Invariant

variable {s s' : Fs} {kind : Kind} {mode : ℕ} {P : List Name} {c : Name} {ok : Bool}

theorem Sized.make (h : Sized s) (hgood : Good maxDnum s')
    (hout : MakeOutcome maxDnum s.vol kind mode P c ok s'.vol) : Sized s' where
  good := hgood
  size i hi hreg := by
    have hkept := hout.fileKept h.good.owned h.good.rooted hi hreg
    by_cases hold : s.vol.Valid i
    · obtain ⟨hreg', hsize, -⟩ := hkept.old hold
      rw [hsize]
      exact h.size i hold (hreg'.symm.trans hreg)
    · rw [(hkept.new hold).1]
      exact Nat.zero_le _

/-- **The step lemma.** -/
theorem sized_step {call : Call} (h : Sized s) (hs : truthfulSystem.step s call s') :
    Sized s' := by
  obtain ⟨⟨hs, hop⟩, hkeeps⟩ := hs
  obtain ⟨op, result, e⟩ := call
  have happ : apply s op = some (result, s', e) := hs
  have hgood := (apply_good_max h.good happ).1
  cases op with
  | mkdir path mode env =>
    have had : Admits maxDnum (rufsMkdir s path.bytes mode.toNat env).2.2 := .inl rfl
    obtain ⟨r, s₁, e₁, ok, hmk, -, -, -, hout⟩ := rufsMkdir_spec h.good.mounted h.good.owned
      h.good.rooted h.good.charged (uint32_lt mode) had
    obtain ⟨-, heq⟩ : _ ∧ (rufsMkdir s path.bytes mode.toNat env).2 = (s', e) := by
      simpa [apply] using happ
    rw [hmk] at heq
    obtain ⟨rfl, rfl⟩ := Prod.mk.inj heq
    exact h.make hgood hout
  | create path mode env =>
    have had : Admits maxDnum (rufsCreate s path.bytes mode.toNat env).2.2 := .inl rfl
    obtain ⟨r, s₁, e₁, ok, hmk, -, -, -, hout⟩ := rufsCreate_spec h.good.mounted h.good.owned
      h.good.rooted h.good.charged (uint32_lt mode) had
    obtain ⟨-, heq⟩ : _ ∧ (rufsCreate s path.bytes mode.toNat env).2 = (s', e) := by
      simpa [apply] using happ
    rw [hmk] at heq
    obtain ⟨rfl, rfl⟩ := Prod.mk.inj heq
    exact h.make hgood hout
  | write path buffer size offset env =>
    obtain ⟨⟨r, s₁, e₁⟩, hw, heq⟩ := Option.map_eq_some_iff.mp happ
    obtain ⟨rfl, rfl, rfl⟩ : Result.code r = result ∧ s₁ = s' ∧ e₁ = e := by simpa using heq
    have hoff : offset.toNat < 2 ^ 43 := hop
    refine ⟨hgood, fun i hi hreg => ?_⟩
    obtain ⟨-, -, ⟨rfl, -, -⟩ | ⟨f, len, hres, hregf, rfl, hlen, hwr⟩⟩ := rufsWrite_spec
      h.good.mounted h.good.owned h.good.rooted h.good.charged hw (.inl rfl)
    · exact h.size i hi hreg
    · have hold := (hwr.valid_iff i).mp hi
      rw [Inode.isReg, hwr.stMode] at hreg
      have hsize := h.size i hold hreg
      by_cases hif : i = f
      · subst hif
        rw [writePos_eq hoff] at hlen hwr
        have hnode : (getNodeByPath s path.bytes 0).1 = some (s.vol.inode i) := by
          rw [(h.good.lookup path).1, hres]
          rfl
        have hzero := len_eq_zero_iff hlen
        have hcases := hkeeps _ hnode hregf
        have hmod : (offset.toNat + len) % 2 ^ 32 ≤ offset.toNat + len := Nat.mod_le _ _
        rw [hwr.size.1]
        split
        · by_cases h0 : len = 0
          · -- nothing was written, so the size is the old one
            subst h0
            have hsame := hcases (hzero.mp rfl)
            omega
          · omega
        · exact hsize
      · rw [hwr.inode_of_ne hif]
        exact hsize
  | getattr _ => exact absurd hop id
  | opendir _ => exact absurd hop id
  | readdir _ => exact absurd hop id
  | «open» _ => exact absurd hop id
  | read _ _ _ _ => exact absurd hop id

theorem Sized.truthful (h : Sized s) : SizesTruthful s := by
  intro ino file hread hreg
  obtain ⟨hv, rfl⟩ := (readi_eq_some h.good.mounted).mp hread
  exact ⟨h.size ino hv hreg, h.good.sizes ino hv hreg⟩

end Invariant

/-- **File sizes are truthful** in every run whose writes keep to the condition, and in every
state of such a run the size after a write agrees with its return value exactly when the write
does keep to it. -/
theorem size_truthful {s : Fs} (h : Reachable truthfulSystem s) :
    SizesTruthful s ∧ ∀ c s', sizeSystem.step s c s' → (SizeLaw s c s' ↔ KeepsSize s c.op) := by
  have hsized : Sized s := by
    refine h.invariant ?_ fun s c s' => sized_step
    rintro s ⟨env, rfl⟩
    exact ⟨rufsMkfs_good (by decide) env, (rufsMkfs_recorded env).size⟩
  exact ⟨hsized.truthful, fun c s' hs => write_sizeLaw_iff hsized.good hs⟩

/-- The run that creates `/a`. -/
theorem firstFile_truthful : Reachable truthfulSystem firstFile := by
  have hstart : Reachable truthfulSystem freshFs := .start freshFs_init
  have hcreate : system.step freshFs ⟨.create pathA 0o644 ⟨0, 0, 0, 0⟩, _, _⟩ firstFile := rfl
  exact hstart.step ⟨⟨hcreate, trivial⟩, trivial⟩

theorem size_truthful_first : SizesTruthful firstFile ∧
    ∀ c s', sizeSystem.step firstFile c s' → (SizeLaw firstFile c s' ↔ KeepsSize firstFile c.op) :=
  size_truthful firstFile_truthful

/-- A write of one byte to `/a`, behind its blocks. -/
def farWrite : Op := .write pathA (fun _ => 1) 1 70000 ⟨0, 0, 0, 0⟩

/-- The file system after it. -/
def farFs : Fs := ((apply firstFile farWrite).map (·.2.1)).getD firstFile

theorem farWrite_step : ∃ r e, sizeSystem.step firstFile ⟨farWrite, .code r, e⟩ farFs := by
  have hsmall : (70000 : UInt64).toNat < 2 ^ 43 := by decide +kernel
  obtain ⟨r, s', e, hw⟩ := rufsWrite_isSome firstFile pathA.bytes (fun _ => 1)
    (1 : UInt64).toNat ⟨0, 0, 0, 0⟩ hsmall
  have happ : apply firstFile farWrite = some (.code r, s', e) := by
    unfold apply farWrite
    dsimp only
    rw [hw]
    rfl
  have hs : farFs = s' := by
    unfold farFs
    rw [happ]
    rfl
  rw [hs]
  exact ⟨r, e, happ, hsmall⟩

/-- **A write that stores nothing moves the end of the file.** The empty file `/a` ends at the
offset afterwards, behind all the blocks a file can have. -/
theorem far_write_grows : ∃ r e, Reachable sizeSystem firstFile ∧
    sizeSystem.step firstFile ⟨farWrite, .code r, e⟩ farFs ∧
    ¬ SizeLaw firstFile ⟨farWrite, .code r, e⟩ farFs ∧ ¬ SizesTruthful farFs := by
  obtain ⟨r, e, hstep⟩ := farWrite_step
  have hgood : Good maxDnum firstFile := reachable_good firstFile_reachable
  refine ⟨r, e, ?_, hstep, fun hlaw => ?_, fun htruthful => ?_⟩
  · obtain ⟨cs, hr⟩ := firstFile_truthful
    exact ⟨cs, hr.of_restrict⟩
  · have hnode : (getNodeByPath firstFile pathA.bytes 0).1.map (fun n => (n.isReg, n.size))
        = some (true, 0) := by decide +kernel
    obtain ⟨file, hfile, heq⟩ := Option.map_eq_some_iff.mp hnode
    obtain ⟨hreg, hsize⟩ := Prod.mk.inj heq
    have hkeeps := (write_sizeLaw_iff hgood hstep).mp hlaw file hfile hreg (.inr (by decide +kernel))
    rw [hsize] at hkeeps
    exact absurd hkeeps (by decide +kernel)
  · have hread : (readi farFs 1).1.map (fun n => (n.isReg, n.size)) = some (true, 70000) := by
      decide +kernel
    obtain ⟨file, hfile, heq⟩ := Option.map_eq_some_iff.mp hread
    obtain ⟨hreg, hsize⟩ := Prod.mk.inj heq
    have hbound := (htruthful 1 file hfile hreg).1
    rw [hsize] at hbound
    exact absurd hbound (by decide)

end Rufs
