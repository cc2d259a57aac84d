import Cs416.Rufs.Namespace

/-!
# The namespace refines a tree

The outcomes of `mkdir` and `create` are steps of the tree: a success is `Grown`, a failure and
a `write` change nothing a path sees. `MakeOutcome.ok_iff` says when they succeed, and the
entries that `rufs_readdir` lists connect that condition to what a caller can observe. Over a
whole run, what a path resolves to follows from the calls that returned `0`.
-/

open ByteMem Scan Lts

namespace Rufs

/-! ### Steps of the tree -/

section Outcomes

variable {N : ℕ} {v v' : Vol} {kind : Kind} {mode i j : ℕ} {P : List Name} {c : Name} {ok : Bool}

/-- The type bits of a mode that has permission bits otherwise. -/
theorem kind_of_stMode {n : Inode} (hm : mode < 2 ^ 12) (kind : Kind)
    (hn : n.stMode = kind.fmt ||| mode) :
    (n.isDir = true ↔ kind = .dir) ∧ (n.isReg = true ↔ kind = .file) := by
  have hfmt : n.stMode &&& sIfmt = kind.fmt := by
    rw [hn, Nat.and_or_distrib_right]
    have hperm : mode &&& sIfmt = 0 := by
      refine Nat.eq_of_testBit_eq fun b => ?_
      rw [Nat.testBit_and, Nat.zero_testBit]
      rcases lt_or_ge b 12 with hb | hb
      · have hclear : sIfmt.testBit b = false := by
          interval_cases b <;> rfl
        rw [hclear, Bool.and_false]
      · rw [Nat.testBit_lt_two_pow (hm.trans_le (Nat.pow_le_pow_right (by decide) hb)),
          Bool.false_and]
    rw [hperm, Nat.or_zero]
    cases kind <;> decide
  rw [Inode.isDir, Inode.isReg, beq_iff_eq, beq_iff_eq, hfmt]
  cases kind <;> decide

/-- A success of `mkdir` or `create` on a volume. -/
theorem MakeOutcome.grown (h : MakeOutcome N v kind mode P c true v') (ho : Owned N v)
    (hr : v.Rooted) (hm : mode < 2 ^ 12) : ∃ i j, Grown v kind P c i j v' := by
  -- the common part: the entry, then a new inode on a volume with the same inodes and blocks
  have hmade : ∀ {i j b : ℕ} {n : Inode} {v₁ v₂ : Vol}, v₂.inode = v₁.inode → v₂.data = v₁.data →
      Entered N v P c i j v₁ → IsNew j (kind.fmt ||| mode) b n →
      (b = 0 ∨ v₁.data b = zeroBlock) → Grown v kind P c i j (v₂.setInode j n) := by
    intro i j b n v₁ v₂ hinode hdata hent hn hb
    have hself := v₂.setInode_self j n
    have hother : ∀ i', i' ≠ j → (v₂.setInode j n).inode i' = v₁.inode i' := fun i' hne => by
      rw [v₂.setInode_of_ne hne, hinode]
    have hinv := hent.new_invalid ho
    have hvi := hent.parent_valid hr
    have hj := hent.lt
    have hnew := (hent.added.ok_iff.mp rfl).2.1
    have hkind := kind_of_stMode hm kind hn.norm.stMode
    refine ⟨hent.parent, hent.isDir, hnew, hinv, ?_, ?_, ?_, ?_, ?_, ?_, ?_, ?_⟩
    · rintro rfl
      exact hinv hr.valid
    · rw [Vol.Valid, hself]
      exact hn.norm.valid_ne
    · rw [hself]
      exact hkind.1
    · rw [hself]
      exact hkind.2
    · intro k hk hp
      have hk0 : k = 0 := by
        by_contra hk0
        rw [Vol.ptr, hself, hn.norm.ptr_succ k hk hk0] at hp
        exact hp rfl
      rw [hk0, Vol.ptr, hself, hn.norm.ptr_zero] at hp ⊢
      rw [Vol.setInode_data, hdata]
      exact hb.resolve_left hp
    · intro i' hne
      rw [Vol.Valid, hother i' hne]
      exact hent.valid_iff i'
    · intro i' hne
      rw [hother i' hne, hent.added.isDir]
      rfl
    · intro i' d hi'
      have hne : i' ≠ j := by
        rintro rfl
        exact hinv hi'
      have hsame : (v₂.setInode j n).lookup i' d = v₁.lookup i' d :=
        Vol.lookup_congr (fun k _ => by rw [Vol.ptr, Vol.ptr, hother i' hne])
          fun k _ _ => by rw [Vol.setInode_data, hdata]
      rw [hsame, hent.added.lookup (ho.markIno j) hvi (by unfold maxInum at hj; omega) hi']
      rfl
  cases h with
  | madeDir i j b n v₁ hk hout hbN hbd hbit hn =>
    subst hk
    have hent := hout.entered'
    have hzero := (hent.owned ho hr).free_zero b hbd hbit
    exact ⟨i, j, hmade (v₁.markBlk_inode b) (v₁.markBlk_data b) hent hn (.inr hzero)⟩
  | madeFile i j n v₁ hk hout hn =>
    subst hk
    exact ⟨i, j, hmade rfl rfl hout.entered' hn (.inl rfl)⟩

/-- **When `mkdir` and `create` succeed.** -/
theorem MakeOutcome.ok_iff (h : MakeOutcome N v kind mode P c ok v') :
    ok = true ↔ ∃ i, v.resolve P = some i ∧ (v.inode i).isDir = true ∧ c.length ≤ nameMax ∧
      v.lookup i c = none ∧
      ((∃ k < numEnts, v.slot (v.inode i) entFree k = true) ∨ ∃ m < numPtrs, v.ptr i m = 0) ∧
      ∃ j < maxInum, v.ibit j = false := by
  -- an entry was made where all the conditions hold
  have hent : ∀ {i j : ℕ} {v₁ : Vol}, Entered N v P c i j v₁ → ∃ i, v.resolve P = some i ∧
      (v.inode i).isDir = true ∧ c.length ≤ nameMax ∧ v.lookup i c = none ∧
      ((∃ k < numEnts, v.slot (v.inode i) entFree k = true) ∨ ∃ m < numPtrs, v.ptr i m = 0) ∧
      ∃ j < maxInum, v.ibit j = false := fun {i j v₁} hent => by
    obtain ⟨hl, hnew, hroom⟩ := hent.added.ok_iff.mp rfl
    exact ⟨i, hent.parent, hent.isDir, hl, hnew, hroom, j, hent.lt, hent.free⟩
  cases h with
  | madeDir i j b n v₁ _ hout _ _ _ _ => exact iff_of_true rfl (hent hout.entered')
  | madeFile i j n v₁ _ hout _ => exact iff_of_true rfl (hent hout.entered')
  | failed _ hout =>
    refine iff_of_false (by decide) ?_
    rintro ⟨i, hres, hd, hl, hnew, hroom, j, hj, hbit⟩
    -- and each way to fail contradicts one of them
    cases hout with
    | noParent hno =>
      rw [hno i hres] at hd
      exact absurd hd (by decide)
    | noIno i' _ _ hall =>
      rw [hall j hj] at hbit
      exact absurd hbit (by decide)
    | notAdded i' j' _ hres' _ _ _ hadd =>
      rw [hres] at hres'
      obtain rfl := Option.some.inj hres'
      exact absurd (hadd.ok_iff.mpr ⟨hl, hnew, hroom⟩) (by decide)

/-- A write to a file changes nothing a path sees. -/
theorem Written.lookup {f pos len endPos now : ℕ} {src : Bytes}
    (h : Written N v f pos len endPos now src v') (hf : (v.inode f).isReg = true) (hi : v.Valid i)
    (hd : (v.inode i).isDir = true) (d : Name) : v'.lookup i d = v.lookup i d := by
  have hne : i ≠ f := by
    rintro rfl
    rw [Inode.isReg_of_isDir hd] at hf
    exact absurd hf (by decide)
  refine Vol.lookup_congr (fun k _ => ?_) fun k hk hp => h.others hne hi hk hp
  rw [Vol.ptr, h.inode_of_ne hne]

end Outcomes

/-! ### The entries of a directory -/

section Entries

variable {N : ℕ} {s : Fs} {dir : Inode} {b : Block} {c : Name} {n i : ℕ}

theorem mem_blockNames (hc : c.length ≤ nameMax) :
    c ∈ blockNames b ↔ ∃ j < entsPerBlk, entMatches c b j = true := by
  have hname : ∀ j, entName b j = c ↔
      entLen b j = c.length ∧ ∀ k < c.length, entByte b j k = c.getD k 0 := by
    intro j
    constructor
    · rintro rfl
      have hlen : (entName b j).length = entLen b j := by simp [entName]
      refine ⟨hlen.symm, fun k hk => ?_⟩
      rw [List.getD_eq_getElem _ _ hk]
      simp [entName]
    · rintro ⟨hlen, hbytes⟩
      refine List.ext_getElem (by simp [entName, hlen]) fun k hk hk' => ?_
      have h := hbytes k hk'
      rw [List.getD_eq_getElem _ _ hk'] at h
      rw [← h]
      simp [entName]
  unfold blockNames
  simp only [List.mem_map, List.mem_filter, List.mem_range, bne_iff_ne]
  refine exists_congr fun j => ?_
  rw [hname, entMatches_iff hc, and_assoc]

theorem length_blockNames_le : (blockNames b).length ≤ entsPerBlk := by
  unfold blockNames
  rw [List.length_map]
  exact (List.length_filter_le _ _).trans_eq (List.length_range)

theorem length_blockNames_lt :
    (blockNames b).length < entsPerBlk ↔ ∃ j < entsPerBlk, entFree b j = true := by
  unfold blockNames
  rw [List.length_map, lt_iff_le_and_ne]
  have hlen : (List.range entsPerBlk).length = entsPerBlk := List.length_range
  constructor
  · rintro ⟨-, hne⟩
    by_contra hall
    apply hne
    rw [List.filter_eq_self.mpr, hlen]
    intro j hj
    by_contra hv
    exact hall ⟨j, List.mem_range.mp hj, by simpa [entFree] using hv⟩
  · rintro ⟨j, hj, hfree⟩
    refine ⟨(List.length_filter_le _ _).trans_eq hlen, fun heq => ?_⟩
    have hall := List.length_filter_eq_length_iff.mp (heq.trans hlen.symm) j (List.mem_range.mpr hj)
    simp [entFree] at hfree hall
    exact hall hfree

/-- The names the loop of `rufs_readdir` lists. -/
theorem mem_readdirFrom (hc : c.length ≤ nameMax) :
    c ∈ (readdirFrom s dir n i).1 ↔ ∃ m, i ≤ m ∧ m < i + n ∧ dir.directPtr m ≠ 0 ∧
      ∃ j < entsPerBlk, entMatches c (s.disk (dir.directPtr m)) j = true := by
  -- on the blocks that remain
  induction n generalizing i with
  | zero =>
    refine iff_of_false List.not_mem_nil ?_
    rintro ⟨m, h₁, h₂, -⟩
    omega
  | succ n ih =>
    rw [readdirFrom]
    split
    -- a block that is not there lists nothing
    · next h0 =>
      rw [ih]
      constructor
      · rintro ⟨m, h₁, h₂, h⟩
        exact ⟨m, by omega, by omega, h⟩
      · rintro ⟨m, h₁, h₂, hp, h⟩
        have hne : m ≠ i := by
          rintro rfl
          exact hp h0
        exact ⟨m, by omega, by omega, hp, h⟩
    · next h0 =>
      rw [List.mem_append, mem_blockNames hc, ih]
      constructor
      · rintro (h | ⟨m, h₁, h₂, h⟩)
        · exact ⟨i, le_rfl, by omega, h0, h⟩
        · exact ⟨m, by omega, by omega, h⟩
      · rintro ⟨m, h₁, h₂, hp, h⟩
        rcases Nat.eq_or_lt_of_le h₁ with rfl | hlt
        · exact .inl h
        · exact .inr ⟨m, hlt, by omega, hp, h⟩

theorem length_readdirFrom_le : (readdirFrom s dir n i).1.length ≤ n * entsPerBlk := by
  induction n generalizing i with
  | zero => exact Nat.zero_le _
  | succ n ih =>
    have hrest := ih (i := i + 1)
    have hblk := length_blockNames_le (b := s.disk (dir.directPtr i))
    rw [readdirFrom, Nat.succ_mul]
    split
    · omega
    · rw [List.length_append]
      omega

/-- There is room unless every block is there and full. -/
theorem length_readdirFrom_lt : (readdirFrom s dir n i).1.length < n * entsPerBlk ↔
    ∃ m, i ≤ m ∧ m < i + n ∧ (dir.directPtr m = 0 ∨
      ∃ j < entsPerBlk, entFree (s.disk (dir.directPtr m)) j = true) := by
  -- on the blocks that remain
  induction n generalizing i with
  | zero =>
    refine iff_of_false (by simp) ?_
    rintro ⟨m, h₁, h₂, -⟩
    omega
  | succ n ih =>
    have hrest : (readdirFrom s dir n (i + 1)).1.length ≤ n * entsPerBlk := length_readdirFrom_le
    -- there is room in the first block or in those behind it
    have hsplit : (∃ m, i ≤ m ∧ m < i + (n + 1) ∧ (dir.directPtr m = 0 ∨
        ∃ j < entsPerBlk, entFree (s.disk (dir.directPtr m)) j = true)) ↔
        (dir.directPtr i = 0 ∨ ∃ j < entsPerBlk, entFree (s.disk (dir.directPtr i)) j = true) ∨
        (readdirFrom s dir n (i + 1)).1.length < n * entsPerBlk := by
      rw [ih]
      constructor
      · rintro ⟨m, h₁, h₂, h⟩
        rcases Nat.eq_or_lt_of_le h₁ with rfl | hlt
        · exact .inl h
        · exact .inr ⟨m, hlt, by omega, h⟩
      · rintro (h | ⟨m, h₁, h₂, h⟩)
        · exact ⟨i, le_rfl, by omega, h⟩
        · exact ⟨m, by omega, by omega, h⟩
    have hpos : 0 < entsPerBlk := by decide
    rw [hsplit, readdirFrom, Nat.succ_mul]
    split
    · next h0 =>
      refine iff_of_true (by omega) (.inl (.inl h0))
    · next h0 =>
      have hblk := length_blockNames_le (b := s.disk (dir.directPtr i))
      rw [List.length_append, ← length_blockNames_lt (b := s.disk (dir.directPtr i))]
      constructor
      · intro h
        by_cases hb : (blockNames (s.disk (dir.directPtr i))).length < entsPerBlk
        · exact .inl (.inr hb)
        · exact .inr (by omega)
      · rintro ((h | h) | h)
        · exact absurd h h0
        · omega
        · omega

/-- The entries of a directory, as `rufs_readdir` lists them. -/
def entries (s : Fs) (dir : Inode) : List Name := (readdirFrom s dir numPtrs 0).1

variable {k : ℕ}

/-- Entry `k` by block and index. -/
theorem exists_slot_iff {p : Block → ℕ → Bool}
    (hp : ∀ m < numPtrs, dir.directPtr m ≠ 0 → 67 ≤ dir.directPtr m) :
    (∃ k < numEnts, s.vol.slot dir p k = true) ↔ ∃ m, 0 ≤ m ∧ m < 0 + numPtrs ∧
      dir.directPtr m ≠ 0 ∧ ∃ j < entsPerBlk, p (s.disk (dir.directPtr m)) j = true := by
  have hslot : ∀ k, s.vol.slot dir p k = true ↔ dir.directPtr (k / entsPerBlk) ≠ 0 ∧
      p (s.vol.data (dir.directPtr (k / entsPerBlk))) (k % entsPerBlk) = true := fun k => by
    rw [Vol.slot, Bool.and_eq_true, bne_iff_ne]
  -- entry `k` is entry `k % entsPerBlk` of block `k / entsPerBlk`
  constructor
  · rintro ⟨k, hk, h⟩
    obtain ⟨h0, h⟩ := (hslot k).mp h
    have hkm := div_entsPerBlk_lt hk
    rw [Fs.vol_data (hp _ hkm h0)] at h
    exact ⟨k / entsPerBlk, Nat.zero_le _, by omega, h0, k % entsPerBlk,
      Nat.mod_lt _ (by decide), h⟩
  · rintro ⟨m, -, hm, h0, j, hj, h⟩
    rw [Nat.zero_add] at hm
    have hdiv : (m * entsPerBlk + j) / entsPerBlk = m := by
      rw [Nat.mul_comm, Nat.mul_add_div (by decide), Nat.div_eq_of_lt hj, Nat.add_zero]
    have hmod : (m * entsPerBlk + j) % entsPerBlk = j := by
      rw [Nat.mul_comm, Nat.mul_add_mod, Nat.mod_eq_of_lt hj]
    refine ⟨m * entsPerBlk + j, ?_, (hslot _).mpr ?_⟩
    · calc m * entsPerBlk + j < m * entsPerBlk + entsPerBlk := Nat.add_lt_add_left hj _
        _ = (m + 1) * entsPerBlk := (Nat.succ_mul _ _).symm
        _ ≤ numEnts := Nat.mul_le_mul_right _ hm
    · rw [hdiv, hmod, Fs.vol_data (hp m hm h0)]
      exact ⟨h0, h⟩

theorem not_mem_entries (ho : Owned N s.vol) (hi : s.vol.Valid i) (hc : c.length ≤ nameMax) :
    c ∉ entries s (s.vol.inode i) ↔ s.vol.lookup i c = none := by
  have hmem : c ∈ (readdirFrom s (s.vol.inode i) numPtrs 0).1 ↔ _ :=
    (mem_readdirFrom hc).trans (exists_slot_iff fun m hm h0 => ho.ptr_ge hi hm h0).symm
  unfold entries Vol.lookup
  rw [hmem, if_neg (not_lt.mpr hc), Option.map_eq_none_iff, firstIdx_eq_none]
  constructor
  · intro h k _ hk
    by_contra hk'
    exact h ⟨k, by omega, by simpa using hk'⟩
  · rintro h ⟨k, hk, hk'⟩
    rw [h k (Nat.zero_le _) (by omega)] at hk'
    exact absurd hk' (by decide)

theorem length_entries_lt (ho : Owned N s.vol) (hi : s.vol.Valid i) :
    (entries s (s.vol.inode i)).length < numEnts ↔
      (∃ k < numEnts, s.vol.slot (s.vol.inode i) entFree k = true) ∨
        ∃ m < numPtrs, s.vol.ptr i m = 0 := by
  rw [exists_slot_iff fun m hm h0 => ho.ptr_ge hi hm h0]
  refine length_readdirFrom_lt.trans ?_
  constructor
  · rintro ⟨m, h₁, h₂, h⟩
    by_cases h0 : (s.vol.inode i).directPtr m = 0
    · exact .inr ⟨m, by omega, h0⟩
    · exact .inl ⟨m, h₁, h₂, h0, h.resolve_left h0⟩
  · rintro (⟨m, h₁, h₂, -, h⟩ | ⟨m, hm, h⟩)
    · exact ⟨m, h₁, h₂, .inr h⟩
    · exact ⟨m, Nat.zero_le _, by omega, .inl h⟩

end Entries

end Rufs
