import Cs416.Lib.NameTree
import Cs416.Rufs.Runs

/-!
# The namespace

What a file system says about names is a tree: `Vol.tree` is that tree, read off the
directories of a volume. The invariant behind it is `Named`: an entry of a directory names a
valid inode that is not the root, and no two entries name the same one. It makes `resolve`
injective, so a new entry adds one path and changes no other (`Grown.resolve`), and
`mkdir` and `create` refine `NameTree.insert`.

The runs considered are those of `treeSystem`: paths as FUSE passes them, and modes that carry
permission bits only, so that the type bits of `st_mode` are those of the operation.
-/

open ByteMem Scan Lts

namespace Rufs

/-! ### Resolving paths -/

section Resolve

variable {v v' : Vol} {i j k : ℕ} {c d : Name} {p q : List Name}

/-- `resolve` looks at the entries of valid directories only. -/
theorem Vol.resolve_congr (hr : v.Rooted) (hvalid : ∀ i, v'.Valid i ↔ v.Valid i)
    (hdir : ∀ i, v.Valid i → (v'.inode i).isDir = (v.inode i).isDir)
    (hlookup : ∀ i c, v.Valid i → (v.inode i).isDir = true → v'.lookup i c = v.lookup i c) :
    v'.resolve p = v.resolve p := by
  induction p using List.reverseRecOn with
  | nil => rfl
  | append_singleton p c ih =>
    rw [Vol.resolve_concat, Vol.resolve_concat, ih]
    cases hres : v.resolve p with
    | none => rfl
    | some i =>
      have hv := Vol.resolve_valid hr hres
      simp only [Option.bind_some, hdir i hv, hvalid]
      cases hd : (v.inode i).isDir with
      | false => rfl
      | true => rw [hlookup i c hv hd]

/-- A directory whose blocks are zeroed has no entries. -/
theorem Vol.lookup_of_zero (h : ∀ k < numPtrs, v.ptr i k ≠ 0 → v.data (v.ptr i k) = zeroBlock)
    (d : Name) : v.lookup i d = none := by
  unfold Vol.lookup
  split
  · rfl
  · refine Option.map_eq_none_iff.mpr (firstIdx_eq_none.mpr fun k _ hk => ?_)
    unfold Vol.slot
    by_cases h0 : v.ptr i (k / entsPerBlk) = 0
    · rw [show (v.inode i).directPtr (k / entsPerBlk) = 0 from h0]
      rfl
    · rw [h _ (div_entsPerBlk_lt (by omega)) h0, entMatches_zeroBlock, Bool.and_false]

/-- What the last component of a path that resolves stands for. -/
theorem Vol.resolve_concat_eq_some : v.resolve (p ++ [c]) = some j ↔
    ∃ i, v.resolve p = some i ∧ (v.inode i).isDir = true ∧ v.lookup i c = some j ∧ v.Valid j := by
  rw [Vol.resolve_concat]
  constructor
  · intro h
    obtain ⟨i, hres, h⟩ := Option.bind_eq_some_iff.mp h
    split at h
    · exact absurd h (by simp)
    · next hd =>
      obtain ⟨j', hl, h⟩ := Option.bind_eq_some_iff.mp h
      split at h
      · next hv =>
        obtain rfl := Option.some.inj h
        exact ⟨i, hres, by simpa using hd, hl, hv⟩
      · exact absurd h (by simp)
  · rintro ⟨i, hres, hd, hl, hv⟩
    rw [hres, Option.bind_some, hd, hl, Option.bind_some, if_pos hv]
    rfl

/-- **Entries name what is there, and each node once.** -/
structure Named (v : Vol) : Prop where
  /-- An entry of a directory names a valid inode, and not the root. -/
  valid : ∀ i c k, v.Valid i → (v.inode i).isDir = true → v.lookup i c = some k →
    v.Valid k ∧ k ≠ 0
  /-- No two entries name the same inode. -/
  once : ∀ i i' c c' k, v.Valid i → v.Valid i' → (v.inode i).isDir = true →
    (v.inode i').isDir = true → v.lookup i c = some k → v.lookup i' c' = some k → i = i' ∧ c = c'

theorem Named.congr (h : Named v) (hvalid : ∀ i, v'.Valid i ↔ v.Valid i)
    (hdir : ∀ i, v.Valid i → (v'.inode i).isDir = (v.inode i).isDir)
    (hlookup : ∀ i c, v.Valid i → (v.inode i).isDir = true → v'.lookup i c = v.lookup i c) :
    Named v' where
  valid i c k hi hd hl := by
    rw [hvalid] at hi ⊢
    rw [hdir i hi] at hd
    rw [hlookup i c hi hd] at hl
    exact h.valid i c k hi hd hl
  once i i' c c' k hi hi' hd hd' hl hl' := by
    rw [hvalid] at hi hi'
    rw [hdir i hi] at hd
    rw [hdir i' hi'] at hd'
    rw [hlookup i c hi hd] at hl
    rw [hlookup i' c' hi' hd'] at hl'
    exact h.once i i' c c' k hi hi' hd hd' hl hl'

/-- **Different paths name different inodes.** -/
theorem Named.resolve_inj (h : Named v) (hr : v.Rooted) (hp : v.resolve p = some k)
    (hq : v.resolve q = some k) : p = q := by
  -- no entry names the root
  have hroot : ∀ {r : List Name} {c : Name}, v.resolve (r ++ [c]) ≠ some 0 := by
    intro r c hres
    obtain ⟨i, hi, hd, hl, -⟩ := Vol.resolve_concat_eq_some.mp hres
    exact (h.valid i c 0 (Vol.resolve_valid hr hi) hd hl).2 rfl
  induction p using List.reverseRecOn generalizing q k with
  | nil =>
    obtain rfl : 0 = k := Option.some.inj hp
    rcases List.eq_nil_or_concat q with rfl | ⟨q, d, rfl⟩
    · rfl
    · rw [List.concat_eq_append] at hq
      exact absurd hq hroot
  | append_singleton p c ih =>
    rcases List.eq_nil_or_concat q with rfl | ⟨q, d, rfl⟩
    · obtain rfl : 0 = k := Option.some.inj hq
      exact absurd hp hroot
    · rw [List.concat_eq_append] at hq ⊢
      obtain ⟨i, hi, hd, hl, -⟩ := Vol.resolve_concat_eq_some.mp hp
      obtain ⟨i', hi', hd', hl', -⟩ := Vol.resolve_concat_eq_some.mp hq
      obtain ⟨rfl, rfl⟩ := h.once i i' c d k (Vol.resolve_valid hr hi) (Vol.resolve_valid hr hi')
        hd hd' hl hl'
      rw [ih hi hi']

end Resolve

/-! ### The tree on a volume -/

section Tree

variable {v v' : Vol} {p : List Name} {i : ℕ}

/-- What inode `i` is. -/
def Vol.kind (v : Vol) (i : ℕ) : Kind := if (v.inode i).isDir then .dir else .file

theorem Vol.kind_eq_dir : v.kind i = .dir ↔ (v.inode i).isDir = true := by
  unfold Vol.kind
  split <;> simp_all

/-- What a path is. -/
def Vol.kindAt (v : Vol) (p : List Name) : Option Kind := (v.resolve p).map v.kind

/-- **The tree of names on a volume.** -/
def Vol.tree (v : Vol) (hr : v.Rooted) : NameTree Name Kind (· = .dir) where
  at_ := v.kindAt
  root := ⟨v.kind 0, rfl, Vol.kind_eq_dir.mpr hr.isDir⟩
  parent p c k h := by
    obtain ⟨j, hj, -⟩ := Option.map_eq_some_iff.mp h
    obtain ⟨i, hi, hd, -⟩ := Vol.resolve_concat_eq_some.mp hj
    exact ⟨v.kind i, Option.map_eq_some_iff.mpr ⟨i, hi, rfl⟩, Vol.kind_eq_dir.mpr hd⟩

/-- The path is a directory. -/
theorem Vol.kindAt_dir :
    (∃ k, v.kindAt p = some k ∧ k = .dir) ↔ ∃ i, v.resolve p = some i ∧ (v.inode i).isDir = true := by
  constructor
  · rintro ⟨k, hk, rfl⟩
    obtain ⟨i, hi, hd⟩ := Option.map_eq_some_iff.mp hk
    exact ⟨i, hi, Vol.kind_eq_dir.mp hd⟩
  · rintro ⟨i, hi, hd⟩
    exact ⟨_, Option.map_eq_some_iff.mpr ⟨i, hi, rfl⟩, Vol.kind_eq_dir.mpr hd⟩

end Tree

/-! ### One more name -/

/-- `v'` is `v` with a new node `j`, under the name `c` in directory `i` at path `P`. -/
structure Grown (v : Vol) (kind : Kind) (P : List Name) (c : Name) (i j : ℕ) (v' : Vol) :
    Prop where
  parent : v.resolve P = some i
  isDir : (v.inode i).isDir = true
  fresh : v.lookup i c = none
  invalid : ¬ v.Valid j
  ne_zero : j ≠ 0
  valid : v'.Valid j
  new_isDir : (v'.inode j).isDir = true ↔ kind = .dir
  new_isReg : (v'.inode j).isReg = true ↔ kind = .file
  new_zero : ∀ k < numPtrs, v'.ptr j k ≠ 0 → v'.data (v'.ptr j k) = zeroBlock
  valid_iff : ∀ i', i' ≠ j → (v'.Valid i' ↔ v.Valid i')
  isDir_eq : ∀ i', i' ≠ j → (v'.inode i').isDir = (v.inode i').isDir
  lookup : ∀ i' d, v.Valid i' → v'.lookup i' d = if i' = i ∧ d = c then some j else v.lookup i' d

section Grown

variable {v v' : Vol} {kind : Kind} {P p : List Name} {c : Name} {i j : ℕ}

theorem Grown.resolve_new (h : Grown v kind P c i j v') : v.resolve (P ++ [c]) = none := by
  rw [Vol.resolve_concat, h.parent, Option.bind_some, h.isDir, h.fresh]
  rfl

/-- **A new entry adds one path and changes no other.** -/
theorem Grown.resolve (h : Grown v kind P c i j v') (hr : v.Rooted) (hn : Named v) :
    v'.resolve p = if p = P ++ [c] then some j else v.resolve p := by
  induction p using List.reverseRecOn with
  | nil =>
    rw [if_neg (by simp)]
    rfl
  | append_singleton q d ih =>
    rw [Vol.resolve_concat, ih]
    by_cases hq : q = P ++ [c]
    · -- the new node has no children
      have hlong : q ++ [d] ≠ P ++ [c] := by
        rw [hq]
        simp
      rw [if_pos hq, if_neg hlong, Vol.resolve_concat, hq, h.resolve_new, Option.bind_some]
      rw [Vol.lookup_of_zero h.new_zero d]
      split <;> rfl
    rw [if_neg hq]
    cases hres : v.resolve q with
    | none =>
      have hne : q ++ [d] ≠ P ++ [c] := by
        intro heq
        obtain ⟨rfl, -⟩ := List.append_inj' heq rfl
        rw [h.parent] at hres
        exact absurd hres (by simp)
      rw [if_neg hne, Vol.resolve_concat, hres]
      rfl
    | some i' =>
      have hv := Vol.resolve_valid hr hres
      have hne : i' ≠ j := by
        rintro rfl
        exact h.invalid hv
      rw [Option.bind_some, h.isDir_eq i' hne, h.lookup i' d hv]
      by_cases hnew : i' = i ∧ d = c
      · -- the entry that was added
        obtain ⟨rfl, rfl⟩ := hnew
        have hpath := hn.resolve_inj hr hres h.parent
        rw [if_pos (⟨rfl, rfl⟩ : i' = i' ∧ d = d), h.isDir, Option.bind_some, if_pos h.valid, hpath,
          if_pos rfl]
        rfl
      · have hne' : q ++ [d] ≠ P ++ [c] := by
          intro heq
          obtain ⟨rfl, hdc⟩ := List.append_inj' heq rfl
          rw [h.parent] at hres
          exact hnew ⟨(Option.some.inj hres).symm, by simpa using hdc⟩
        rw [if_neg hnew, if_neg hne', Vol.resolve_concat, hres, Option.bind_some]
        split
        · rfl
        · next hd =>
          cases hl : v.lookup i' d with
          | none => rfl
          | some k =>
            have hk := (hn.valid i' d k hv (by simpa using hd) hl).1
            have hkj : k ≠ j := by
              rintro rfl
              exact h.invalid hk
            rw [Option.bind_some, Option.bind_some, if_pos hk, if_pos ((h.valid_iff k hkj).mpr hk)]

theorem Grown.named (h : Grown v kind P c i j v') (hn : Named v) : Named v' := by
  -- an entry of `v'` is an entry of `v`, or the new one
  have hentry : ∀ {i' d k}, v'.Valid i' → (v'.inode i').isDir = true → v'.lookup i' d = some k →
      (i' = i ∧ d = c ∧ k = j) ∨
        (v.Valid i' ∧ (v.inode i').isDir = true ∧ v.lookup i' d = some k) := by
    intro i' d k hi hd hl
    have hne : i' ≠ j := by
      rintro rfl
      rw [Vol.lookup_of_zero h.new_zero d] at hl
      exact absurd hl (by simp)
    rw [h.valid_iff i' hne] at hi
    rw [h.isDir_eq i' hne] at hd
    rw [h.lookup i' d hi] at hl
    split at hl
    · next hnew => exact .inl ⟨hnew.1, hnew.2, (Option.some.inj hl).symm⟩
    · exact .inr ⟨hi, hd, hl⟩
  refine ⟨fun i' d k hi hd hl => ?_, fun i₁ i₂ c₁ c₂ k h₁ h₂ hd₁ hd₂ hl₁ hl₂ => ?_⟩
  · rcases hentry hi hd hl with ⟨-, -, rfl⟩ | ⟨hi, hd, hl⟩
    · exact ⟨h.valid, h.ne_zero⟩
    · obtain ⟨hk, hk0⟩ := hn.valid i' d k hi hd hl
      have hkj : k ≠ j := by
        rintro rfl
        exact h.invalid hk
      exact ⟨(h.valid_iff k hkj).mpr hk, hk0⟩
  · -- no old entry names the new node
    rcases hentry h₁ hd₁ hl₁ with ⟨rfl, rfl, rfl⟩ | ⟨h₁, hd₁, hl₁⟩ <;>
      rcases hentry h₂ hd₂ hl₂ with ⟨rfl, rfl, hk⟩ | ⟨h₂, hd₂, hl₂⟩
    · exact ⟨rfl, rfl⟩
    · exact absurd (hn.valid i₂ c₂ k h₂ hd₂ hl₂).1 h.invalid
    · rw [hk] at hl₁
      exact absurd (hn.valid i₁ c₁ j h₁ hd₁ hl₁).1 h.invalid
    · exact hn.once i₁ i₂ c₁ c₂ k h₁ h₂ hd₁ hd₂ hl₁ hl₂

/-- **It is an insertion into the tree.** -/
theorem Grown.tree (h : Grown v kind P c i j v') (hr : v.Rooted) (hr' : v'.Rooted)
    (hn : Named v) : ∃ hp hnew, v'.tree hr' = (v.tree hr).insert P c kind hp hnew := by
  have hp : ∃ k', (v.tree hr).at_ P = some k' ∧ k' = .dir :=
    Vol.kindAt_dir.mpr ⟨i, h.parent, h.isDir⟩
  have hnew : (v.tree hr).at_ (P ++ [c]) = none := by
    change (v.resolve (P ++ [c])).map v.kind = none
    rw [h.resolve_new]
    rfl
  refine ⟨hp, hnew, NameTree.ext fun p => ?_⟩
  rw [NameTree.at_insert]
  change (v'.resolve p).map v'.kind = if _ then _ else (v.resolve p).map v.kind
  rw [h.resolve hr hn]
  -- the new path has the kind asked for, the others keep theirs
  by_cases hpc : p = P ++ [c]
  · have hkind : v'.kind j = kind := by
      have hd := h.new_isDir
      rw [← Vol.kind_eq_dir] at hd
      cases hk : v'.kind j <;> cases kind <;> simp_all
    rw [if_pos hpc, if_pos hpc, Option.map_some, hkind]
  · rw [if_neg hpc, if_neg hpc]
    cases hres : v.resolve p with
    | none => rfl
    | some i' =>
      -- no old path resolves to the new inode
      have hne : i' ≠ j := by
        rintro rfl
        exact h.invalid (Vol.resolve_valid hr hres)
      rw [Option.map_some, Option.map_some, Vol.kind, Vol.kind, h.isDir_eq i' hne]

end Grown

end Rufs
