import Cs416.Rufs.Safety
import Cs416.Rufs.TreeRefinement

/-!
# Directory listings

`rufs_readdir` and `dir_find` go through the entries of a directory separately: one copies each
name out of its 208 bytes and terminates it, the other compares a prefix of these bytes with a
length. `Distinct` is the invariant under which they agree: a used entry holds a name as a path
component can be, and no other entry of the directory holds the same one. An insertion keeps it
because `dir_add` looks the name up first (`Distinct.inserted`), `MakeOutcome.distinct` and
`Written.distinct` are the step lemmas, and `listing_agrees` is about whole runs.
-/

open ByteMem Scan Lts

namespace Rufs

/-! ### The runs -/

/-- The calls considered. -/
def ListOp : Op → Prop
  | .mkdir path _ _ => ∃ p : TreePath, path = p.toCPath
  | .create path _ _ => ∃ p : TreePath, path = p.toCPath
  | .write path _ _ offset _ => (∃ p : TreePath, path = p.toCPath) ∧ offset.toNat < 2 ^ 43
  | _ => False

def listSystem : System Fs Call := system.restrict fun _ c => ListOp c.op

/-- The C string that starts with these bytes. -/
def cString (bytes : List UInt8) : Name := bytes.takeWhile (· != 0)

/-- What a caller of `rufs_readdir` and `dir_find` sees at a path. -/
structure ListingOk (s : Fs) (path : CPath) : Prop where
  /-- For a directory the names passed to `filler` are `.` and `..`, and then the names that
  `dir_find` finds, each once. -/
  directory : ∀ dir, (getNodeByPath s path.bytes 0).1 = some dir → dir.isDir = true →
    ∃ names, (rufsReaddir s path.bytes).1 = (0, [46] :: [46, 46] :: names) ∧
      ([46] :: [46, 46] :: names).Nodup ∧
      (∀ c ∈ names, cString c = c ∧ 1 ≤ c.length ∧ c.length ≤ nameMax) ∧
      ∀ c, (0 : UInt8) ∉ c → (c ∈ names ↔ ∃ ino, (dirFind s dir.ino c).1 = some ino)
  /-- For a regular file there are none. -/
  file : ∀ file, (getNodeByPath s path.bytes 0).1 = some file → file.isReg = true →
    (rufsReaddir s path.bytes).1 = (-1, [])

/-! ### The invariant -/

/-- A name that can be listed: a C string that fits an entry and is not one of the two names
that every listing starts with. -/
structure Listable (c : Name) : Prop where
  ne_nil : c ≠ []
  no_nul : (0 : UInt8) ∉ c
  ne_dot : c ≠ [46]
  ne_dotdot : c ≠ [46, 46]
  length_le : c.length ≤ nameMax

/-- **Every used entry of directory `i` has a name of its own.** -/
structure Distinct (v : Vol) (i : ℕ) : Prop where
  named : ∀ k < numEnts, v.slot (v.inode i) entUsed k = true →
    ∃ c, Listable c ∧ v.slot (v.inode i) (entMatches c) k = true
  once : ∀ c k k', c.length ≤ nameMax → k < numEnts → k' < numEnts →
    v.slot (v.inode i) (entMatches c) k = true → v.slot (v.inode i) (entMatches c) k' = true →
    k = k'

section Distinct

variable {N : ℕ} {v v' : Vol} {i f k : ℕ} {c : Name}

theorem Distinct.congr (h : Distinct v i) (hp : ∀ k < numPtrs, v'.ptr i k = v.ptr i k)
    (hd : ∀ k < numPtrs, v.ptr i k ≠ 0 → v'.data (v.ptr i k) = v.data (v.ptr i k)) :
    Distinct v' i where
  named k hk hu := by
    rw [(Vol.slot_congr hp hd _ hk).1] at hu
    obtain ⟨c, hc, hm⟩ := h.named k hk hu
    exact ⟨c, hc, by rw [(Vol.slot_congr hp hd _ hk).1, hm]⟩
  once c k k' hc hk hk' hm hm' := by
    rw [(Vol.slot_congr hp hd _ hk).1] at hm
    rw [(Vol.slot_congr hp hd _ hk').1] at hm'
    exact h.once c k k' hc hk hk' hm hm'

/-- A directory whose blocks are zeroed has no entries. -/
theorem distinct_of_zero
    (h : ∀ k < numPtrs, v.ptr i k ≠ 0 → v.data (v.ptr i k) = zeroBlock) : Distinct v i := by
  have hnone : ∀ p : Block → ℕ → Bool, EntryLocal p → ∀ k < numEnts,
      v.slot (v.inode i) p k = false := by
    intro p hp k hk
    unfold Vol.slot
    by_cases h0 : v.ptr i (k / entsPerBlk) = 0
    · rw [show (v.inode i).directPtr (k / entsPerBlk) = 0 from h0]
      rfl
    · rw [h _ (div_entsPerBlk_lt hk) h0, hp.zero, Bool.and_false]
  refine ⟨fun k hk hu => ?_, fun c k k' hc hk _ hm _ => ?_⟩
  · rw [hnone _ entryLocal_entUsed k hk] at hu
    exact absurd hu (by decide)
  · rw [hnone _ (entryLocal_entMatches hc) k hk] at hm
    exact absurd hm (by decide)

/-- **A new name keeps the entries distinct**, since no entry had it before. -/
theorem Distinct.inserted (h : Distinct v i) (hins : Inserted v v' i f c k) (hc : Listable c)
    (hnew : v.lookup i c = none) : Distinct v' i := by
  have hnone : ∀ k' < numEnts, v.slot (v.inode i) (entMatches c) k' = false := by
    intro k' hk'
    unfold Vol.lookup at hnew
    rw [if_neg (not_lt.mpr hc.length_le), Option.map_eq_none_iff, firstIdx_eq_none] at hnew
    exact hnew k' (Nat.zero_le _) (by omega)
  refine ⟨fun k' hk' hu => ?_, fun d k₁ k₂ hd hk₁ hk₂ hm₁ hm₂ => ?_⟩
  · by_cases hkk : k' = k
    · exact ⟨c, hc, by rw [hkk, (hins.new c hc.length_le).mpr rfl]⟩
    · rw [hins.other k' hk' hkk _ entryLocal_entUsed] at hu
      obtain ⟨d, hd, hm⟩ := h.named k' hk' hu
      exact ⟨d, hd, by rw [hins.other k' hk' hkk _ (entryLocal_entMatches hd.length_le), hm]⟩
  · -- an entry with the new name is the new entry
    have hold : ∀ m < numEnts, m ≠ k → v'.slot (v'.inode i) (entMatches d) m = true →
        d ≠ c ∧ v.slot (v.inode i) (entMatches d) m = true := by
      intro m hm hmk hmatch
      rw [hins.other m hm hmk _ (entryLocal_entMatches hd)] at hmatch
      refine ⟨?_, hmatch⟩
      rintro rfl
      rw [hnone m hm] at hmatch
      exact absurd hmatch (by decide)
    by_cases h₁ : k₁ = k <;> by_cases h₂ : k₂ = k
    · rw [h₁, h₂]
    · rw [h₁] at hm₁
      exact absurd ((hins.new d hd).mp hm₁) (hold k₂ hk₂ h₂ hm₂).1
    · rw [h₂] at hm₂
      exact absurd ((hins.new d hd).mp hm₂) (hold k₁ hk₁ h₁ hm₁).1
    · exact h.once d k₁ k₂ hd hk₁ hk₂ (hold k₁ hk₁ h₁ hm₁).2 (hold k₂ hk₂ h₂ hm₂).2

end Distinct

/-! ### The calls -/

/-- The entries of every directory are distinct. -/
def AllDistinct (v : Vol) : Prop := ∀ i, v.Valid i → (v.inode i).isDir = true → Distinct v i

section Calls

variable {N : ℕ} {v v' : Vol} {kind : Kind} {mode i j : ℕ} {P : List Name} {c : Name} {ok : Bool}

theorem allDistinct_of_unchanged (h : AllDistinct v) (hi : v'.inode = v.inode)
    (hd : v'.data = v.data) : AllDistinct v' := by
  intro i hv hdir
  rw [Vol.Valid, hi] at hv
  rw [hi] at hdir
  exact (h i hv hdir).congr (fun k _ => by rw [Vol.ptr, hi]) fun k _ _ => by rw [hd]

/-- The directories after a new entry was made, and before its inode is stored. -/
theorem Entered.allDistinct {v₁ : Vol} (h : Entered N v P c i j v₁) (ho : Owned N v)
    (hr : v.Rooted) (hc : c.length ≤ nameMax → Listable c) (hall : AllDistinct v) :
    AllDistinct v₁ := by
  intro i' hv hdir
  have hi := h.parent_valid hr
  have hj := h.lt
  rw [h.valid_iff] at hv
  rw [h.added.isDir] at hdir
  have hold := hall i' hv hdir
  by_cases hii : i' = i
  · subst hii
    obtain ⟨hl, hnew, -⟩ := h.added.ok_iff.mp rfl
    obtain ⟨k, hins⟩ := h.added.inserted (ho.markIno j) hi (by unfold maxInum at hj; omega)
    have hold' : Distinct (v.markIno j) i' := hold.congr (fun _ _ => rfl) fun _ _ _ => rfl
    exact hold'.inserted hins (hc hl) hnew
  · refine hold.congr (fun k _ => ?_) fun k hk hp =>
      h.added.data_of_ne (ho.markIno j) hi hii hv hk hp
    rw [Vol.ptr, h.added.inode_of_ne hii]
    rfl

/-- **`mkdir` and `create` keep the entries distinct.** -/
theorem MakeOutcome.allDistinct (h : MakeOutcome N v kind mode P c ok v') (ho : Owned N v)
    (hr : v.Rooted) (hc : c.length ≤ nameMax → Listable c) (hall : AllDistinct v) :
    AllDistinct v' := by
  -- both operations enter the name and then store the new inode
  have hmade : ∀ {i j b m : ℕ} {n : Inode} {v₁ v₂ : Vol}, v₂.inode = v₁.inode →
      v₂.data = v₁.data → Entered N v P c i j v₁ → IsNew j m b n →
      (b = 0 ∨ v₁.data b = zeroBlock) → AllDistinct (v₂.setInode j n) := by
    intro i j b m n v₁ v₂ hinode hdata hent hn hb i' hv hdir
    by_cases hij : i' = j
    · subst hij
      -- the new inode: its only block, if any, is zero
      refine distinct_of_zero fun k hk hp => ?_
      have hself := v₂.setInode_self i' n
      have hk0 : k = 0 := by
        by_contra hk0
        rw [Vol.ptr, hself, hn.norm.ptr_succ k hk hk0] at hp
        exact hp rfl
      rw [hk0, Vol.ptr, hself, hn.norm.ptr_zero] at hp ⊢
      rw [Vol.setInode_data, hdata]
      exact hb.resolve_left hp
    -- the other directories are as the entry left them
    · have hsame : (v₂.setInode j n).inode i' = v₁.inode i' := by
        rw [v₂.setInode_of_ne hij, hinode]
      rw [Vol.Valid, hsame] at hv
      rw [hsame] at hdir
      refine (hent.allDistinct ho hr hc hall i' hv hdir).congr (fun k _ => ?_) fun k _ _ => ?_
      · rw [Vol.ptr, hsame]
      · rw [Vol.setInode_data, hdata]
  cases h with
  | failed _ hout =>
    exact allDistinct_of_unchanged hall hout.failed_unchanged.1 hout.failed_unchanged.2
  | madeDir i j b n v₁ _ hout hbN hbd hbit hn =>
    have hent := hout.entered'
    -- a free block reads as zeros
    have hzero := (hent.owned ho hr).free_zero b hbd hbit
    exact hmade (v₁.markBlk_inode b) (v₁.markBlk_data b) hent hn (.inr hzero)
  | madeFile i j n v₁ _ hout hn => exact hmade rfl rfl hout.entered' hn (.inl rfl)

/-- **`write` keeps the entries distinct**, since a regular file shares no block with a
directory. -/
theorem Written.allDistinct {f pos len endPos now : ℕ} {src : Bytes}
    (h : Written N v f pos len endPos now src v') (hf : (v.inode f).isReg = true)
    (hall : AllDistinct v) : AllDistinct v' := by
  intro i hv hdir
  rw [h.valid_iff] at hv
  rw [h.isDir] at hdir
  have hne : i ≠ f := by
    rintro rfl
    rw [Inode.isReg_of_isDir hdir] at hf
    exact absurd hf (by decide)
  refine (hall i hv hdir).congr (fun k _ => ?_) fun k hk hp => h.others hne hv hk hp
  rw [Vol.ptr, h.inode_of_ne hne]

end Calls

/-! ### Whole runs -/

/-- A good file system whose directories have distinct entries. -/
structure Listed (s : Fs) : Prop where
  good : Good maxDnum s
  distinct : AllDistinct s.vol

section Runs

variable {s s' : Fs}

/-- The last component of a path can be listed, if it fits an entry. -/
theorem TreePath.listable (p : TreePath) (hl : (basename p.toCPath.bytes).length ≤ nameMax) :
    Listable (basename p.toCPath.bytes) := by
  rcases List.eq_nil_or_concat p.comps with h | ⟨P, c, h⟩
  · -- the name that `mkdir("/")` enters
    have hbytes : p.toCPath.bytes = [slash] := by
      change pathBytes p.comps = _
      rw [h]
      rfl
    rw [hbytes]
    constructor <;> decide
  · have hc : IsName c := p.names c (by rw [h, List.concat_eq_append]; simp)
    have hbase : basename p.toCPath.bytes = c := by
      change basename (pathBytes p.comps) = c
      rw [h, List.concat_eq_append]
      exact basename_concat (fun d hd => p.names d (by rw [h, List.concat_eq_append]; simp [hd])) hc
    rw [hbase] at hl ⊢
    exact ⟨hc.ne_nil, hc.no_nul, hc.ne_dot, hc.ne_dotdot, hl⟩

/-- **The step lemma.** -/
theorem listed_step {call : Call} (h : Listed s) (hs : listSystem.step s call s') :
    Listed s' := by
  obtain ⟨hs, hop⟩ := hs
  obtain ⟨op, result, e⟩ := call
  have happ : apply s op = some (result, s', e) := hs
  refine ⟨(apply_good_max h.good happ).1, ?_⟩
  -- only `mkdir`, `create` and `write` are steps here
  cases op with
  | mkdir path mode env =>
    obtain ⟨p, rfl⟩ := hop
    have had : Admits maxDnum (rufsMkdir s p.toCPath.bytes mode.toNat env).2.2 := .inl rfl
    obtain ⟨r, s₁, e₁, ok, hmk, -, -, -, hout⟩ := rufsMkdir_spec h.good.mounted h.good.owned
      h.good.rooted h.good.charged (uint32_lt mode) had
    obtain ⟨-, heq⟩ : _ ∧ (rufsMkdir s p.toCPath.bytes mode.toNat env).2 = (s', e) := by
      simpa [apply] using happ
    rw [hmk] at heq
    obtain ⟨rfl, rfl⟩ := Prod.mk.inj heq
    exact hout.allDistinct h.good.owned h.good.rooted p.listable h.distinct
  | create path mode env =>
    obtain ⟨p, rfl⟩ := hop
    have had : Admits maxDnum (rufsCreate s p.toCPath.bytes mode.toNat env).2.2 := .inl rfl
    obtain ⟨r, s₁, e₁, ok, hmk, -, -, -, hout⟩ := rufsCreate_spec h.good.mounted h.good.owned
      h.good.rooted h.good.charged (uint32_lt mode) had
    obtain ⟨-, heq⟩ : _ ∧ (rufsCreate s p.toCPath.bytes mode.toNat env).2 = (s', e) := by
      simpa [apply] using happ
    rw [hmk] at heq
    obtain ⟨rfl, rfl⟩ := Prod.mk.inj heq
    exact hout.allDistinct h.good.owned h.good.rooted p.listable h.distinct
  | write path buffer size offset env =>
    obtain ⟨⟨r, s₁, e₁⟩, hw, heq⟩ := Option.map_eq_some_iff.mp happ
    obtain ⟨rfl, rfl, rfl⟩ : Result.code r = result ∧ s₁ = s' ∧ e₁ = e := by simpa using heq
    obtain ⟨-, -, ⟨rfl, -, -⟩ | ⟨f, len, -, hreg, rfl, -, hwr⟩⟩ := rufsWrite_spec h.good.mounted
      h.good.owned h.good.rooted h.good.charged hw (.inl rfl)
    · exact h.distinct
    · exact hwr.allDistinct hreg h.distinct
  | getattr _ => exact absurd hop id
  | opendir _ => exact absurd hop id
  | readdir _ => exact absurd hop id
  | «open» _ => exact absurd hop id
  | read _ _ _ _ => exact absurd hop id

theorem rufsMkfs_listed (env : Env) : Listed (rufsMkfs env).1 := by
  have hgood : Good maxDnum (rufsMkfs env).1 := rufsMkfs_good (by decide) env
  obtain ⟨-, hvol⟩ := rufsMkfs_spec env
  refine ⟨hgood, fun i hi _ => distinct_of_zero fun k _ _ => ?_⟩
  rw [hvol]
  rfl

theorem listSystem_listed {s : Fs} (h : Reachable listSystem s) : Listed s := by
  refine h.invariant ?_ fun s c s' => listed_step
  rintro s ⟨env, rfl⟩
  exact rufsMkfs_listed env

end Runs

/-! ### The listing -/

/-- The name in entry `k`. -/
def Vol.slotName (v : Vol) (dir : Inode) (k : ℕ) : Name :=
  entName (v.data (dir.directPtr (k / entsPerBlk))) (k % entsPerBlk)

section Listing

variable {N : ℕ} {s : Fs} {v : Vol} {dir : Inode} {i k n : ℕ} {b : Block} {c : Name}

/-- An entry that matches a name holds exactly it. -/
theorem entName_of_entMatches (hc : c.length ≤ nameMax) (h : entMatches c b k = true) :
    entName b k = c := by
  obtain ⟨-, hlen, hbytes⟩ := (entMatches_iff hc).mp h
  refine List.ext_getElem (by simp [entName, hlen]) fun m hm hm' => ?_
  have hbyte := hbytes m hm'
  rw [List.getD_eq_getElem _ _ hm'] at hbyte
  rw [← hbyte]
  simp [entName]

theorem slotName_of_slot (hc : c.length ≤ nameMax) (h : v.slot dir (entMatches c) k = true) :
    v.slotName dir k = c := by
  rw [Vol.slot, Bool.and_eq_true] at h
  exact entName_of_entMatches hc h.2

/-- The loop of `rufs_readdir` lists the names of the used entries in order. -/
theorem readdirFrom_eq (hp : ∀ k < numPtrs, dir.directPtr k ≠ 0 → 67 ≤ dir.directPtr k)
    (hn : i + n ≤ numPtrs) : (readdirFrom s dir n i).1
      = ((List.range' (i * entsPerBlk) (n * entsPerBlk)).filter (s.vol.slot dir entUsed)).map
          (s.vol.slotName dir) := by
  induction n generalizing i with
  | zero => simp [readdirFrom]
  | succ n ih =>
    have hrest := ih (i := i + 1) (by omega)
    -- the entries of block `i` come first
    have hdiv : ∀ j < entsPerBlk, (i * entsPerBlk + j) / entsPerBlk = i := fun j hj => by
      rw [Nat.mul_comm, Nat.mul_add_div (by decide), Nat.div_eq_of_lt hj, Nat.add_zero]
    have hmod : ∀ j < entsPerBlk, (i * entsPerBlk + j) % entsPerBlk = j := fun j hj => by
      rw [Nat.mul_comm, Nat.mul_add_mod, Nat.mod_eq_of_lt hj]
    have hsplit : List.range' (i * entsPerBlk) ((n + 1) * entsPerBlk)
        = (List.range entsPerBlk).map (i * entsPerBlk + ·)
          ++ List.range' ((i + 1) * entsPerBlk) (n * entsPerBlk) := by
      rw [Nat.succ_mul n, Nat.add_comm (n * entsPerBlk), ← List.range'_append_1, Nat.succ_mul i,
        List.range'_eq_map_range]
    rw [readdirFrom, hsplit, List.filter_append, List.map_append, ← hrest, List.filter_map,
      List.map_map]
    by_cases h0 : dir.directPtr i = 0
    · have hnone : (List.range entsPerBlk).filter
          (s.vol.slot dir entUsed ∘ (i * entsPerBlk + ·)) = [] := by
        refine List.filter_eq_nil_iff.mpr fun j hj => ?_
        rw [Function.comp_apply, Vol.slot, hdiv j (List.mem_range.mp hj), h0]
        simp
      rw [if_pos h0, hnone]
      rfl
    · have hdata : s.vol.data (dir.directPtr i) = s.disk (dir.directPtr i) :=
        Fs.vol_data (hp i (by omega) h0) s
      have hused : (List.range entsPerBlk).filter
          (s.vol.slot dir entUsed ∘ (i * entsPerBlk + ·))
            = (List.range entsPerBlk).filter fun j => entValid (s.disk (dir.directPtr i)) j != 0 := by
        refine List.filter_congr fun j hj => ?_
        have hj' := List.mem_range.mp hj
        rw [Function.comp_apply, Vol.slot, hdiv j hj', hmod j hj', hdata, bne_iff_ne.mpr h0,
          Bool.true_and]
        rfl
      have hnames : ∀ j ∈ (List.range entsPerBlk).filter
          (fun j => entValid (s.disk (dir.directPtr i)) j != 0),
          (s.vol.slotName dir ∘ (i * entsPerBlk + ·)) j = entName (s.disk (dir.directPtr i)) j := by
        intro j hj
        have hj' := List.mem_range.mp (List.mem_filter.mp hj).1
        rw [Function.comp_apply, Vol.slotName, hdiv j hj', hmod j hj', hdata]
      rw [if_neg h0, hused, List.map_congr_left hnames]
      rfl

/-- The entries of a directory as a list of names of its own. -/
theorem entries_eq (ho : Owned N s.vol) (hi : s.vol.Valid i) :
    entries s (s.vol.inode i) =
      ((List.range numEnts).filter (s.vol.slot (s.vol.inode i) entUsed)).map
        (s.vol.slotName (s.vol.inode i)) := by
  have h := readdirFrom_eq (s := s) (n := numPtrs) (i := 0)
    (fun k hk hp => ho.ptr_ge hi hk hp) le_rfl
  rw [Nat.zero_mul, ← List.range_eq_range'] at h
  exact h

/-- Every name that is listed can be. -/
theorem Listed.listable (h : Listed s) (hi : s.vol.Valid i) (hd : (s.vol.inode i).isDir = true)
    (hc : c ∈ entries s (s.vol.inode i)) : Listable c := by
  rw [entries_eq h.good.owned hi] at hc
  obtain ⟨k, hk, rfl⟩ := List.mem_map.mp hc
  obtain ⟨hlt, hused⟩ := List.mem_filter.mp hk
  obtain ⟨d, hd', hm⟩ := (h.distinct i hi hd).named k (List.mem_range.mp hlt) hused
  rw [slotName_of_slot hd'.length_le hm]
  exact hd'

/-- **No name is listed twice.** -/
theorem Listed.nodup (h : Listed s) (hi : s.vol.Valid i) (hd : (s.vol.inode i).isDir = true) :
    (entries s (s.vol.inode i)).Nodup := by
  rw [entries_eq h.good.owned hi]
  refine List.Nodup.map_on (fun k hk k' hk' heq => ?_) (List.nodup_range.filter _)
  obtain ⟨hlt, hused⟩ := List.mem_filter.mp hk
  obtain ⟨hlt', hused'⟩ := List.mem_filter.mp hk'
  have hdist := h.distinct i hi hd
  obtain ⟨c, hc, hm⟩ := hdist.named k (List.mem_range.mp hlt) hused
  obtain ⟨c', hc', hm'⟩ := hdist.named k' (List.mem_range.mp hlt') hused'
  rw [slotName_of_slot hc.length_le hm, slotName_of_slot hc'.length_le hm'] at heq
  subst heq
  exact hdist.once c k k' hc.length_le (List.mem_range.mp hlt) (List.mem_range.mp hlt') hm hm'

/-- **`dir_find` finds exactly the names that are listed.** -/
theorem Listed.mem_entries (h : Listed s) (hi : s.vol.Valid i) (hd : (s.vol.inode i).isDir = true) :
    c ∈ entries s (s.vol.inode i) ↔ ∃ ino, (dirFind s i c).1 = some ino := by
  rw [dirFind_eq h.good.mounted h.good.owned hi]
  by_cases hl : c.length ≤ nameMax
  · rw [← Option.ne_none_iff_exists', ← not_iff_not, not_not]
    exact not_mem_entries h.good.owned hi hl
  · refine iff_of_false (fun hc => hl (h.listable hi hd hc).length_le) ?_
    rintro ⟨ino, hino⟩
    rw [Vol.lookup, if_pos (not_le.mp hl)] at hino
    exact absurd hino (by simp)

end Listing

/-- **Directory listing agrees with lookup**, for every path in every state that a run of
`mkdir`, `create` and `write` reaches. -/
theorem listing_agrees {s : Fs} (h : Reachable listSystem s) (path : CPath) : ListingOk s path := by
  have hlisted := listSystem_listed h
  have hgood := hlisted.good
  constructor
  · intro dir hdir hd
    rcases hg : getNodeByPath s path.bytes 0 with ⟨node, e⟩
    rw [hg] at hdir
    obtain rfl : node = some dir := hdir
    obtain ⟨i, hi, rfl, -⟩ := hgood.exists_ino hg
    have hlistable : ∀ c ∈ entries s (s.vol.inode i), Listable c := fun c hc =>
      hlisted.listable hi hd hc
    refine ⟨entries s (s.vol.inode i), ?_, ?_, fun c hc => ?_, fun c _ => ?_⟩
    · unfold rufsReaddir
      rw [hg]
      dsimp only
      rw [if_neg (by rw [hd]; decide)]
      rfl
    -- no entry is called `.` or `..`
    · refine List.nodup_cons.mpr ⟨fun hmem => ?_, List.nodup_cons.mpr ⟨fun hmem => ?_, ?_⟩⟩
      · rcases List.mem_cons.mp hmem with heq | hmem
        · exact absurd heq (by decide)
        · exact (hlistable _ hmem).ne_dot rfl
      · exact (hlistable _ hmem).ne_dotdot rfl
      · exact hlisted.nodup hi hd
    · have hc' := hlistable c hc
      -- an entry holds no zero byte, so it is read back whole
      refine ⟨?_, List.length_pos_of_ne_nil hc'.ne_nil, hc'.length_le⟩
      refine List.takeWhile_eq_self_iff.mpr fun x hx => ?_
      rw [bne_iff_ne]
      rintro rfl
      exact hc'.no_nul hx
    · rw [hgood.owned.ino_self i hi]
      exact hlisted.mem_entries hi hd
  · intro file hfile hreg
    rcases hg : getNodeByPath s path.bytes 0 with ⟨node, e⟩
    rw [hg] at hfile
    obtain rfl : node = some file := hfile
    have hnot : file.isDir = false := by
      by_contra hd
      rw [Inode.isReg_of_isDir (by simpa using hd)] at hreg
      exact absurd hreg (by decide)
    unfold rufsReaddir
    rw [hg]
    dsimp only
    rw [if_pos hnot]

/-- The root. -/
def pathRoot : CPath := ⟨[slash], rfl, by decide, by decide⟩

theorem firstMkdir_listSystem :
    Reachable listSystem (rufsMkdir freshFs pathA.bytes 0o755 ⟨0, 0, 0, 0⟩).2.1 := by
  have hstart : Reachable listSystem freshFs := .start freshFs_init
  have hname : ∀ c ∈ [([97] : Name)], IsName c := by
    intro c hc
    rw [List.mem_singleton.mp hc]
    constructor <;> decide
  exact hstart.step (l := firstMkdir) ⟨rfl, ⟨⟨[[97]], hname, by decide⟩, rfl⟩⟩

theorem listing_agrees_first :
    ListingOk (rufsMkdir freshFs pathA.bytes 0o755 ⟨0, 0, 0, 0⟩).2.1 pathRoot :=
  listing_agrees firstMkdir_listSystem pathRoot

end Rufs
