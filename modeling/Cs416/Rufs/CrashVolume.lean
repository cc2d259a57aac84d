import Cs416.Rufs.TreeRefinement

/-!
# Volumes that a killed process leaves

A call that is cut short leaves bits that are set for nothing, blocks that nobody points at, and
an entry whose inode was never written. `Sound` is the invariant that holds all the same: the
blocks have their owners, and an entry names an inode that is taken, and no two name the same.
The ledger and `Named` do not survive: blocks are lost, and an entry may name an inode that is
not valid.

`Survives new v v'` says what a path sees of such a cut: the same paths with the same files, where
a byte of a file is the old one or, in the range that was being written, the new one.
-/

open ByteMem Scan

namespace Rufs

/-! ### Entries -/

/-- Entries name inodes that are taken, and each inode once. -/
structure Linked (v : Vol) : Prop where
  taken : ∀ i c k, v.Valid i → (v.inode i).isDir = true → v.lookup i c = some k →
    v.ibit k = true
  once : ∀ i i' c c' k, v.Valid i → v.Valid i' → (v.inode i).isDir = true →
    (v.inode i').isDir = true → v.lookup i c = some k → v.lookup i' c' = some k → i = i' ∧ c = c'
  root : ∀ i c, v.Valid i → (v.inode i).isDir = true → v.lookup i c ≠ some 0

/-- **The invariant of a volume that may have been cut short.** -/
structure Sound (v : Vol) : Prop where
  owned : Owned maxDnum v
  rooted : v.Rooted
  linked : Linked v

section Sound

variable {v v' v₁ : Vol} {i j k b : ℕ} {c : Name} {p q : List Name} {n : Inode}

theorem Linked.congr (h : Linked v) (hvalid : ∀ i, v'.Valid i ↔ v.Valid i)
    (hdir : ∀ i, v.Valid i → (v'.inode i).isDir = (v.inode i).isDir)
    (hlookup : ∀ i c, v.Valid i → (v.inode i).isDir = true → v'.lookup i c = v.lookup i c)
    (hbit : ∀ i, v.ibit i = true → v'.ibit i = true) : Linked v' where
  taken i c k hi hd hl := by
    rw [hvalid] at hi
    rw [hdir i hi] at hd
    rw [hlookup i c hi hd] at hl
    exact hbit k (h.taken i c k hi hd hl)
  once i i' c c' k hi hi' hd hd' hl hl' := by
    rw [hvalid] at hi hi'
    rw [hdir i hi] at hd
    rw [hdir i' hi'] at hd'
    rw [hlookup i c hi hd] at hl
    rw [hlookup i' c' hi' hd'] at hl'
    exact h.once i i' c c' k hi hi' hd hd' hl hl'
  root i c hi hd := by
    rw [hvalid] at hi
    rw [hdir i hi] at hd
    rw [hlookup i c hi hd]
    exact h.root i c hi hd

theorem Sound.congr (h : Sound v) (ho : Owned maxDnum v') (hvalid : ∀ i, v'.Valid i ↔ v.Valid i)
    (hdir : ∀ i, v.Valid i → (v'.inode i).isDir = (v.inode i).isDir)
    (hlookup : ∀ i c, v.Valid i → (v.inode i).isDir = true → v'.lookup i c = v.lookup i c)
    (hbit : ∀ i, v.ibit i = true → v'.ibit i = true) : Sound v' where
  owned := ho
  rooted := ⟨(hvalid 0).mpr h.rooted.valid, (hdir 0 h.rooted.valid).trans h.rooted.isDir⟩
  linked := h.linked.congr hvalid hdir hlookup hbit

/-- Different paths name different inodes. -/
theorem Sound.resolve_inj (h : Sound v) (hp : v.resolve p = some k) (hq : v.resolve q = some k) :
    p = q := by
  have hroot : ∀ {r : List Name} {c : Name}, v.resolve (r ++ [c]) ≠ some 0 := by
    intro r c hres
    obtain ⟨i, hi, hd, hl, -⟩ := Vol.resolve_concat_eq_some.mp hres
    exact h.linked.root i c (Vol.resolve_valid h.rooted hi) hd hl
  induction p using List.reverseRecOn generalizing q k with
  | nil =>
    obtain rfl : 0 = k := Option.some.inj hp
    rcases List.eq_nil_or_concat q with rfl | ⟨q, d, rfl⟩
    · rfl
    · rw [List.concat_eq_append] at hq
      exact absurd hq hroot
  | append_singleton p c ih =>
    rcases List.eq_nil_or_concat q with rfl | ⟨q, d, rfl⟩
    · obtain rfl : 0 = k := Option.some.inj hq
      exact absurd hp hroot
    · rw [List.concat_eq_append] at hq ⊢
      obtain ⟨i, hi, hd, hl, -⟩ := Vol.resolve_concat_eq_some.mp hp
      obtain ⟨i', hi', hd', hl', -⟩ := Vol.resolve_concat_eq_some.mp hq
      obtain ⟨rfl, rfl⟩ := h.linked.once i i' c d k (Vol.resolve_valid h.rooted hi)
        (Vol.resolve_valid h.rooted hi') hd hd' hl hl'
      rw [ih hi hi']

/-! ### What a path sees of it -/

/-- The names of `v'` are those of `v`. -/
structure SameNames (v v' : Vol) : Prop where
  valid_iff : ∀ i, v'.Valid i ↔ v.Valid i
  stMode : ∀ i, v.Valid i → (v'.inode i).stMode = (v.inode i).stMode
  /-- An entry stays. A name without one may have got one that leads nowhere. -/
  entry : ∀ i c, v.Valid i → (v.inode i).isDir = true → v'.lookup i c = v.lookup i c ∨
    v.lookup i c = none ∧ ∃ j, v'.lookup i c = some j ∧ ¬ v.Valid j

/-- `v'` is `v` after a cut: bytes of files may be new where `new` says so. -/
structure Survives (new : ℕ → ℕ → UInt8 → Prop) (v v' : Vol) : Prop extends SameNames v v' where
  file : ∀ i, v.Valid i → (v.inode i).isReg = true → v'.inode i = v.inode i
  content : ∀ i p, v.Valid i → (v.inode i).isReg = true → p < maxFile →
    content v' (v.inode i) p = content v (v.inode i) p ∨ new i p (content v' (v.inode i) p)

theorem SameNames.isDir (h : SameNames v v') (hi : v.Valid i) :
    (v'.inode i).isDir = (v.inode i).isDir := by
  rw [Inode.isDir, Inode.isDir, h.stMode i hi]

/-- **A path resolves to what it did before.** -/
theorem SameNames.resolve (h : SameNames v v') (hr : v.Rooted) (p : List Name) :
    v'.resolve p = v.resolve p := by
  induction p using List.reverseRecOn with
  | nil => rfl
  | append_singleton p c ih =>
    rw [Vol.resolve_concat, Vol.resolve_concat, ih]
    cases hres : v.resolve p with
    | none => rfl
    | some i =>
      have hi := Vol.resolve_valid hr hres
      rw [Option.bind_some, Option.bind_some, h.isDir hi]
      cases hd : (v.inode i).isDir with
      | false => rfl
      | true =>
        rw [if_neg (by decide), if_neg (by decide)]
        rcases h.entry i c hi hd with heq | ⟨hnone, j, hj, hv⟩
        · rw [heq]
          simp only [h.valid_iff]
        · -- the new entry leads nowhere
          rw [hnone, hj, Option.bind_some, if_neg fun hvj => hv ((h.valid_iff j).mp hvj)]
          rfl

theorem SameNames.kindAt (h : SameNames v v') (hr : v.Rooted) (p : List Name) :
    v'.kindAt p = v.kindAt p := by
  rw [Vol.kindAt, Vol.kindAt, h.resolve hr]
  cases hres : v.resolve p with
  | none => rfl
  | some i => rw [Option.map_some, Option.map_some, Vol.kind, Vol.kind,
      h.isDir (Vol.resolve_valid hr hres)]

variable {new new' : ℕ → ℕ → UInt8 → Prop}

theorem Survives.isDir (h : Survives new v v') (hi : v.Valid i) :
    (v'.inode i).isDir = (v.inode i).isDir := h.toSameNames.isDir hi

theorem Survives.isReg (h : Survives new v v') (hi : v.Valid i) :
    (v'.inode i).isReg = (v.inode i).isReg := by
  rw [Inode.isReg, Inode.isReg, h.stMode i hi]

theorem Survives.resolve (h : Survives new v v') (hr : v.Rooted) (p : List Name) :
    v'.resolve p = v.resolve p := h.toSameNames.resolve hr p

theorem Survives.mono (hnew : ∀ i p b, new i p b → new' i p b) (h : Survives new v v') :
    Survives new' v v' where
  toSameNames := h.toSameNames
  file := h.file
  content i p hi hreg hp := (h.content i p hi hreg hp).imp_right (hnew i p _)

theorem Survives.refl (new : ℕ → ℕ → UInt8 → Prop) (v : Vol) : Survives new v v where
  valid_iff _ := Iff.rfl
  stMode _ _ := rfl
  entry _ _ _ _ := .inl rfl
  file _ _ _ := rfl
  content _ _ _ _ _ := .inl rfl

theorem Survives.trans (h₁ : Survives new v v₁) (h₂ : Survives new v₁ v') : Survives new v v' where
  valid_iff i := (h₂.valid_iff i).trans (h₁.valid_iff i)
  stMode i hi := (h₂.stMode i ((h₁.valid_iff i).mpr hi)).trans (h₁.stMode i hi)
  entry i c hi hd := by
    have hi₁ := (h₁.valid_iff i).mpr hi
    have hd₁ := (h₁.isDir hi).trans hd
    rcases h₂.entry i c hi₁ hd₁ with heq | ⟨hnone, j, hj, hv⟩
    · rw [heq]
      exact h₁.entry i c hi hd
    · rcases h₁.entry i c hi hd with heq | ⟨-, j', hj', -⟩
      · rw [← heq]
        exact .inr ⟨hnone, j, hj, fun hvj => hv ((h₁.valid_iff j).mpr hvj)⟩
      · rw [hnone] at hj'
        exact absurd hj' (by simp)
  file i hi hreg := by
    have hreg₁ := (h₁.isReg hi).trans hreg
    rw [h₂.file i ((h₁.valid_iff i).mpr hi) hreg₁, h₁.file i hi hreg]
  content i p hi hreg hp := by
    have h := h₂.content i p ((h₁.valid_iff i).mpr hi) ((h₁.isReg hi).trans hreg) hp
    rw [h₁.file i hi hreg] at h
    rcases h with heq | hnew
    · rw [heq]
      exact h₁.content i p hi hreg hp
    · exact .inr hnew

/-- Nothing that a valid inode holds has changed. -/
theorem Survives.of_eq (hinode : ∀ i, v.Valid i → v'.inode i = v.inode i)
    (hvalid : ∀ i, v'.Valid i ↔ v.Valid i)
    (hdata : ∀ i k, v.Valid i → k < numPtrs → v.ptr i k ≠ 0 →
      v'.data (v.ptr i k) = v.data (v.ptr i k)) : Survives new v v' where
  valid_iff := hvalid
  stMode i hi := by rw [hinode i hi]
  entry i c hi _ := by
    refine .inl (Vol.lookup_congr (fun k _ => ?_) fun k hk hp => hdata i k hi hk hp)
    rw [Vol.ptr, hinode i hi]
  file i hi _ := hinode i hi
  content i p hi _ hp :=
    .inl (content_congr rfl fun h0 => hdata i _ hi (div_blockSize_lt hp) h0)

/-! ### The writes of `dir_add` -/

/-- Where `dir_add` may be cut, with the name `c` for inode `f` in directory `i`: before its first
write, with a block that nobody points at yet, or with the entry made. -/
inductive AddStage (v : Vol) (i f : ℕ) (c : Name) : Vol → Prop
  | same : AddStage v i f c v
  | taken (b : ℕ) : b < maxDnum → v.dbit b = false → AddStage v i f c (v.markBlk b)
  | filled (b : ℕ) (blk : Block) : b < maxDnum → v.dbit b = false →
      AddStage v i f c ((v.markBlk b).setData (67 + b) blk)
  | added (v' : Vol) : AddOutcome maxDnum v i f c true v' → AddStage v i f c v'

theorem Owned.data_of_free (ho : Owned maxDnum v) (hb : v.dbit b = false) {blk : Block}
    (hi : v.Valid i) (hk : k < numPtrs) :
    ((v.markBlk b).setData (67 + b) blk).data (v.ptr i k) = v.data (v.ptr i k) :=
  Function.update_of_ne (ho.ptr_ne_of_free hb hi hk) _ _

/-- Taking bits and filling free blocks is not seen. -/
theorem Sound.taken (h : Sound v) (new : ℕ → ℕ → UInt8 → Prop) (b : ℕ) :
    Sound (v.markBlk b) ∧ Survives new v (v.markBlk b) :=
  ⟨h.congr (h.owned.markBlk b) (fun _ => Iff.rfl) (fun _ _ => rfl) (fun _ _ _ _ => rfl)
    fun _ => id, .of_eq (fun _ _ => rfl) (fun _ => Iff.rfl) fun _ _ _ _ _ => rfl⟩

theorem Sound.filled (h : Sound v) (new : ℕ → ℕ → UInt8 → Prop) 
    (hb : v.dbit b = false) (blk : Block) :
    Sound ((v.markBlk b).setData (67 + b) blk) ∧
      Survives new v ((v.markBlk b).setData (67 + b) blk) := by
  have hs : Survives new v ((v.markBlk b).setData (67 + b) blk) :=
    .of_eq (fun _ _ => rfl) (fun _ => Iff.rfl) fun i k hi hk _ => h.owned.data_of_free hb hi hk
  refine ⟨h.congr ?_ hs.valid_iff (fun _ _ => rfl) ?_ fun _ => id, hs⟩
  · exact (h.owned.markBlk b).setData (Function.update_self _ _ _) blk
  · intro i c hi hd
    exact Vol.lookup_congr (fun _ _ => rfl) fun k hk _ => h.owned.data_of_free hb hi hk

theorem Sound.markIno (h : Sound v) (new : ℕ → ℕ → UInt8 → Prop) (j : ℕ) :
    Sound (v.markIno j) ∧ Survives new v (v.markIno j) := by
  refine ⟨h.congr (h.owned.markIno j) (fun _ => Iff.rfl) (fun _ _ => rfl) (fun _ _ _ _ => rfl) ?_,
    .of_eq (fun _ _ => rfl) (fun _ => Iff.rfl) fun _ _ _ _ _ => rfl⟩
  intro i hi
  rw [Vol.markIno_ibit, Function.update_apply]
  split
  · rfl
  · exact hi

/-- No entry names an inode that is not taken. -/
theorem Linked.ne_of_free (h : Linked v) (hj : v.ibit j = false) (hi : v.Valid i)
    (hd : (v.inode i).isDir = true) : v.lookup i c ≠ some j := by
  intro hl
  rw [h.taken i c j hi hd hl] at hj
  exact absurd hj (by decide)

/-- **The entry is made** for an inode that was free and has been taken. -/
theorem Sound.added (h : Sound v) (new : ℕ → ℕ → UInt8 → Prop) (hi : v.Valid i)
    (hd : (v.inode i).isDir = true) (hj : j < maxInum) (hfree : v.ibit j = false)
    (ha : AddOutcome maxDnum (v.markIno j) i j c true v') :
    Sound v' ∧ Survives new v v' := by
  have hinv : ¬ v.Valid j := fun hv => by
    rw [(h.owned.ibit_of_valid j hv).2] at hfree
    exact absurd hfree (by decide)
  have hj0 : j ≠ 0 := by
    rintro rfl
    exact hinv h.rooted.valid
  have ho := h.owned.markIno j
  have hlookup : ∀ i' c', v.Valid i' →
      v'.lookup i' c' = if i' = i ∧ c' = c then some j else v.lookup i' c' := fun i' c' hi' =>
    ha.lookup ho hi (by unfold maxInum at hj; omega) hi' c'
  have hnew : v.lookup i c = none := (ha.ok_iff.mp rfl).2.1
  have hvalid : ∀ i', v'.Valid i' ↔ v.Valid i' := ha.valid_iff
  have hdir : ∀ i', (v'.inode i').isDir = (v.inode i').isDir := ha.isDir
  have hmode : ∀ i', (v'.inode i').stMode = (v.inode i').stMode := by
    intro i'
    by_cases hne : i' = i
    · rw [hne, ha.self.2]
      rfl
    · rw [ha.inode_of_ne hne]
      rfl
  -- a file is another inode than the directory
  have hne : ∀ i', (v.inode i').isReg = true → i' ≠ i := by
    rintro i' hreg rfl
    rw [Inode.isReg_of_isDir hd] at hreg
    exact absurd hreg (by decide)
  refine ⟨⟨ha.owned ho hi, ha.rooted ⟨h.rooted.valid, h.rooted.isDir⟩, ?_, ?_, ?_⟩,
    ⟨hvalid, fun i' _ => hmode i', ?_⟩, ?_, ?_⟩
  · intro i' c' k hi' hd' hl
    rw [hvalid] at hi'
    rw [hdir] at hd'
    rw [hlookup i' c' hi'] at hl
    rw [ha.ibit, Vol.markIno_ibit, Function.update_apply]
    split at hl
    · obtain rfl := Option.some.inj hl
      rw [if_pos rfl]
    · split
      · rfl
      · exact h.linked.taken i' c' k hi' hd' hl
  · intro i₁ i₂ c₁ c₂ k h₁ h₂ hd₁ hd₂ hl₁ hl₂
    rw [hvalid] at h₁ h₂
    rw [hdir] at hd₁ hd₂
    rw [hlookup _ _ h₁] at hl₁
    rw [hlookup _ _ h₂] at hl₂
    split at hl₁ <;> split at hl₂
    · next e₁ e₂ => exact ⟨e₁.1.trans e₂.1.symm, e₁.2.trans e₂.2.symm⟩
    · obtain rfl := Option.some.inj hl₁
      exact absurd hl₂ (h.linked.ne_of_free hfree h₂ hd₂)
    · obtain rfl := Option.some.inj hl₂
      exact absurd hl₁ (h.linked.ne_of_free hfree h₁ hd₁)
    · exact h.linked.once i₁ i₂ c₁ c₂ k h₁ h₂ hd₁ hd₂ hl₁ hl₂
  · intro i' c' hi' hd' hl
    rw [hvalid] at hi'
    rw [hdir] at hd'
    rw [hlookup _ _ hi'] at hl
    split at hl
    · exact hj0 (Option.some.inj hl)
    · exact h.linked.root i' c' hi' hd' hl
  · intro i' c' hi' _
    rw [hlookup i' c' hi']
    split
    · next e => exact .inr ⟨by rw [e.1, e.2, hnew], j, rfl, hinv⟩
    · exact .inl rfl
  · intro i' _ hreg
    rw [ha.inode_of_ne (hne i' hreg)]
    rfl
  · intro i' p hi' hreg hp
    refine .inl (content_congr rfl fun h0 => ?_)
    exact ha.data_of_ne ho hi (hne i' hreg) hi' (div_blockSize_lt hp) h0

theorem Sound.addStage (h : Sound v) (new : ℕ → ℕ → UInt8 → Prop) (hi : v.Valid i)
    (hd : (v.inode i).isDir = true) (hj : j < maxInum) (hfree : v.ibit j = false) (hs : AddStage (v.markIno j) i j c v') :
    Sound v' ∧ Survives new v v' := by
  have hm := h.markIno new j
  cases hs with
  | same => exact hm
  | taken b hb hbit =>
    obtain ⟨hs, hv⟩ := hm.1.taken new b
    exact ⟨hs, hm.2.trans hv⟩
  | filled b blk hb hbit =>
    obtain ⟨hs, hv⟩ := hm.1.filled new hbit blk
    exact ⟨hs, hm.2.trans hv⟩
  | added v' ha => exact h.added new hi hd hj hfree ha

/-- Where `mkdir` and `create` may be cut before their last write. -/
inductive MakeStage (v : Vol) (P : List Name) (c : Name) : Vol → Prop
  | same : MakeStage v P c v
  | adding (i j : ℕ) (v' : Vol) : v.resolve P = some i → (v.inode i).isDir = true → j < maxInum →
      v.ibit j = false → AddStage (v.markIno j) i j c v' → MakeStage v P c v'
  | entered (i j b : ℕ) (v₁ : Vol) : Entered maxDnum v P c i j v₁ → b < maxDnum →
      v₁.dbit b = false → MakeStage v P c (v₁.markBlk b)

theorem Sound.entered (h : Sound v) (new : ℕ → ℕ → UInt8 → Prop) {P : List Name}
    (he : Entered maxDnum v P c i j v₁) :
    Sound v₁ ∧ Survives new v v₁ :=
  h.added new (he.parent_valid h.rooted) he.isDir he.lt he.free he.added

/-- **A call that is cut before its last write is not seen.** -/
theorem Sound.makeStage (h : Sound v) (new : ℕ → ℕ → UInt8 → Prop) {P : List Name}
    (hs : MakeStage v P c v') :
    Sound v' ∧ Survives new v v' := by
  cases hs with
  | same => exact ⟨h, .refl new v⟩
  | adding i j v' hres hd hj hfree hs =>
    exact h.addStage new (Vol.resolve_valid h.rooted hres) hd hj hfree hs
  | entered i j b v₁ he hb hbit =>
    obtain ⟨hs₁, hv₁⟩ := h.entered new he
    obtain ⟨hs₂, hv₂⟩ := hs₁.taken new b
    exact ⟨hs₂, hv₁.trans hv₂⟩

end Sound

/-! ### The last write of `mkdir` and `create` -/

/-- What a `mkdir` or `create` that is complete did: inode `j` is new, and the path `P ++ [c]`
leads to it. Before the last write the entry led nowhere. -/
structure Born (v : Vol) (kind : Kind) (mode : ℕ) (P : List Name) (c : Name) (j : ℕ) (v' : Vol) :
    Prop where
  sound : Sound v'
  free : v.ibit j = false
  resolve : ∀ p, v'.resolve p = if p = P ++ [c] then some j else v.resolve p
  stMode_new : (v'.inode j).stMode = kind.fmt ||| mode
  stMode : ∀ i, v.Valid i → (v'.inode i).stMode = (v.inode i).stMode
  valid_iff : ∀ i, i ≠ j → (v'.Valid i ↔ v.Valid i)
  entry : ∀ i d k, v.Valid i → (v.inode i).isDir = true → v.lookup i d = some k →
    v'.lookup i d = some k
  fresh : ∀ i, v.resolve P = some i → v.lookup i c = none

section Born

variable {v v₁ v' : Vol} {i j : ℕ} {P : List Name} {c : Name} {kind : Kind} {mode : ℕ}

/-- An inode that an entry names becomes valid, with no entries of its own. -/
theorem Sound.born (h : Sound v₁) (hP : v₁.resolve P = some i) (hd : (v₁.inode i).isDir = true)
    (hl : v₁.lookup i c = some j) (hj : ¬ v₁.Valid j) (ho : Owned maxDnum v') (hv : v'.Valid j)
    (hempty : ∀ d, v'.lookup j d = none) (hother : ∀ i', i' ≠ j → v'.inode i' = v₁.inode i')
    (hdata : v'.data = v₁.data) (hbit : v'.ibit = v₁.ibit) :
    Sound v' ∧ ∀ p, v'.resolve p = if p = P ++ [c] then some j else v₁.resolve p := by
  have hi := Vol.resolve_valid h.rooted hP
  have hne : ∀ i', v₁.Valid i' → i' ≠ j := by
    rintro i' hi' rfl
    exact hj hi'
  have hlookup : ∀ i' d, v₁.Valid i' → v'.lookup i' d = v₁.lookup i' d := fun i' d hi' =>
    Vol.lookup_congr (fun k _ => by rw [Vol.ptr, Vol.ptr, hother i' (hne i' hi')])
      fun k _ _ => by rw [hdata]
  -- an entry of `v'` is an entry of `v₁`
  have hentry : ∀ {i' d k}, v'.Valid i' → (v'.inode i').isDir = true → v'.lookup i' d = some k →
      v₁.Valid i' ∧ (v₁.inode i').isDir = true ∧ v₁.lookup i' d = some k := by
    intro i' d k hi' hd' hl'
    have hij : i' ≠ j := by
      rintro rfl
      rw [hempty d] at hl'
      exact absurd hl' (by simp)
    rw [Vol.Valid, hother i' hij] at hi'
    rw [hother i' hij] at hd'
    rw [hlookup i' d hi'] at hl'
    exact ⟨hi', hd', hl'⟩
  refine ⟨⟨ho, ⟨?_, ?_⟩, ?_, ?_, ?_⟩, fun p => ?_⟩
  · rw [Vol.Valid, hother 0 (hne 0 h.rooted.valid)]
    exact h.rooted.valid
  · rw [hother 0 (hne 0 h.rooted.valid)]
    exact h.rooted.isDir
  · intro i' d k hi' hd' hl'
    obtain ⟨h₁, h₂, h₃⟩ := hentry hi' hd' hl'
    rw [hbit]
    exact h.linked.taken i' d k h₁ h₂ h₃
  · intro i₁ i₂ c₁ c₂ k h₁ h₂ hd₁ hd₂ hl₁ hl₂
    obtain ⟨hv₁, hd₁, hl₁⟩ := hentry h₁ hd₁ hl₁
    obtain ⟨hv₂, hd₂, hl₂⟩ := hentry h₂ hd₂ hl₂
    exact h.linked.once i₁ i₂ c₁ c₂ k hv₁ hv₂ hd₁ hd₂ hl₁ hl₂
  · intro i' d hi' hd' hl'
    obtain ⟨h₁, h₂, h₃⟩ := hentry hi' hd' hl'
    exact h.linked.root i' d h₁ h₂ h₃
  · induction p using List.reverseRecOn with
    | nil =>
      rw [if_neg (by simp)]
      rfl
    | append_singleton q d ih =>
      have hdead : v₁.resolve (P ++ [c]) = none := by
        rw [Vol.resolve_concat, hP, Option.bind_some, hd, hl, Option.bind_some, if_neg hj]
        rfl
      rw [Vol.resolve_concat, ih]
      by_cases hq : q = P ++ [c]
      · -- the new inode has no children
        have hlong : q ++ [d] ≠ P ++ [c] := by
          rw [hq]
          simp
        rw [if_pos hq, if_neg hlong, Vol.resolve_concat, hq, hdead, Option.bind_some, hempty d]
        split <;> rfl
      rw [if_neg hq, Vol.resolve_concat]
      cases hres : v₁.resolve q with
      | none =>
        have hqd : q ++ [d] ≠ P ++ [c] := by
          intro heq
          obtain ⟨rfl, -⟩ := List.append_inj' heq rfl
          rw [hP] at hres
          exact absurd hres (by simp)
        rw [if_neg hqd]
        rfl
      | some i' =>
        have hi' := Vol.resolve_valid h.rooted hres
        rw [Option.bind_some, Option.bind_some, hother i' (hne i' hi'), hlookup i' d hi']
        by_cases hqd : q ++ [d] = P ++ [c]
        · obtain ⟨rfl, hdc⟩ := List.append_inj' hqd rfl
          obtain rfl : d = c := by simpa using hdc
          obtain rfl : i = i' := Option.some.inj (hP.symm.trans hres)
          rw [if_pos rfl, hd, hl, Option.bind_some, if_pos hv]
          rfl
        rw [if_neg hqd]
        cases hd' : (v₁.inode i').isDir with
        | false => rfl
        | true =>
          cases hl' : v₁.lookup i' d with
          | none => rfl
          | some k =>
            -- another name leads to another inode
            have hk : k ≠ j := by
              rintro rfl
              obtain ⟨rfl, rfl⟩ := h.linked.once i i' c d k hi hi' hd hd' hl hl'
              rw [h.resolve_inj hP hres] at hqd
              exact hqd rfl
            rw [Option.bind_some, Option.bind_some]
            simp only [Vol.Valid, hother k hk]

/-- **A success of `mkdir` or `create`**, whatever calls were cut short before. -/
theorem MakeOutcome.born (hm : MakeOutcome maxDnum v kind mode P c true v') (h : Sound v) :
    ∃ j, Born v kind mode P c j v' := by
  -- the part that both share, for a new inode with an empty block or none
  have hmade : ∀ {i j b : ℕ} {n : Inode} {v₁ v₂ : Vol}, v₂.inode = v₁.inode → v₂.data = v₁.data →
      v₂.ibit = v₁.ibit → Entered maxDnum v P c i j v₁ → IsNew j (kind.fmt ||| mode) b n →
      (b = 0 ∨ v₁.data b = zeroBlock) → Owned maxDnum (v₂.setInode j n) →
      Born v kind mode P c j (v₂.setInode j n) := by
    intro i j b n v₁ v₂ hinode hdata hbit hent hn hb ho
    obtain ⟨hs₁, hseen⟩ := h.entered (fun _ _ _ => False) hent
    have hinv := hent.new_invalid h.owned
    have hvi := hent.parent_valid h.rooted
    have hj : j < 2 ^ 16 := hent.lt.trans (by decide)
    have hlookup : ∀ i' d, v.Valid i' → v₁.lookup i' d = if i' = i ∧ d = c then some j
        else v.lookup i' d := fun i' d hi' => hent.added.lookup (h.owned.markIno j) hvi hj hi' d
    have hself := v₂.setInode_self j n
    have hother : ∀ i', i' ≠ j → (v₂.setInode j n).inode i' = v₁.inode i' := fun i' hne => by
      rw [v₂.setInode_of_ne hne, hinode]
    have hempty : ∀ d, (v₂.setInode j n).lookup j d = none := by
      refine Vol.lookup_of_zero fun k hk hp => ?_
      have hk0 : k = 0 := by
        by_contra hk0
        rw [Vol.ptr, hself, hn.norm.ptr_succ k hk hk0] at hp
        exact hp rfl
      rw [hk0, Vol.ptr, hself, hn.norm.ptr_zero] at hp ⊢
      rw [Vol.setInode_data, hdata]
      exact hb.resolve_left hp
    have hvj : (v₂.setInode j n).Valid j := by
      rw [Vol.Valid, hself]
      exact hn.norm.valid_ne
    have hP : v₁.resolve P = some i := by rw [hseen.resolve h.rooted, hent.parent]
    have hd : (v₁.inode i).isDir = true := (hseen.isDir hvi).trans hent.isDir
    have hl : v₁.lookup i c = some j := by rw [hlookup i c hvi, if_pos ⟨rfl, rfl⟩]
    have hinv' := hent.new_invalid' h.owned
    obtain ⟨hsound, hres⟩ := hs₁.born hP hd hl hinv' ho hvj hempty hother hdata hbit
    have hnew : v.lookup i c = none := (hent.added.ok_iff.mp rfl).2.1
    have hij : ∀ i', v.Valid i' → i' ≠ j := by
      rintro i' hi' rfl
      exact hinv hi'
    refine ⟨hsound, hent.free, fun p => ?_, ?_, fun i' hi' => ?_, fun i' hne => ?_, ?_, ?_⟩
    · rw [hres, hseen.resolve h.rooted]
    · rw [hself, hn.norm.stMode]
    · rw [hother i' (hij i' hi'), hseen.stMode i' hi']
    · rw [Vol.Valid, hother i' hne]
      exact hent.valid_iff i'
    · intro i' d k hi' _ hk
      have hsame : (v₂.setInode j n).lookup i' d = v₁.lookup i' d :=
        Vol.lookup_congr (fun k _ => by rw [Vol.ptr, Vol.ptr, hother i' (hij i' hi')])
          fun k _ _ => by rw [Vol.setInode_data, hdata]
      rw [hsame, hlookup i' d hi', if_neg ?_, hk]
      rintro ⟨rfl, rfl⟩
      rw [hk] at hnew
      exact absurd hnew (by simp)
    · intro i' hi'
      obtain rfl := Option.some.inj (hent.parent.symm.trans hi')
      exact hnew
  have hkeep : ∀ {i j : ℕ} {v₁ : Vol}, Entered maxDnum v P c i j v₁ → Owned maxDnum v₁ :=
    fun hent => hent.owned h.owned h.rooted
  cases hm with
  | madeDir i j b n v₁ hk hout hbN hbd hbit hn =>
    subst hk
    have hent := hout.entered'
    have hzero := (hkeep hent).free_zero b hbd hbit
    exact ⟨j, hmade (v₁.markBlk_inode b) (v₁.markBlk_data b) (v₁.markBlk_ibit b) hent hn (.inr hzero)
      ((hkeep hent).newDir hent.lt hent.ibit_new hbN hbit hn)⟩
  | madeFile i j n v₁ hk hout hn =>
    subst hk
    have hent := hout.entered'
    exact ⟨j, hmade rfl rfl rfl hent hn (.inl rfl)
      ((hkeep hent).newFile hent.lt hent.ibit_new hn)⟩

end Born

/-! ### The writes of `rufs_write` -/

/-- The bytes that a write of `len` bytes of `src` at position `pos` of file `f` may leave. -/
def WrittenByte (f pos len : ℕ) (src : Bytes) (i p : ℕ) (b : UInt8) : Prop :=
  i = f ∧ pos ≤ p ∧ p < pos + len ∧ b = src (p - pos)

/-- **Where `rufs_write` may be cut**: the volume `v` has become `v'`, and `n` is the inode of file
`f` in memory. On disk the inode is the old one. -/
structure Tearing (f pos len : ℕ) (src : Bytes) (v : Vol) (n : Inode) (v' : Vol) : Prop where
  sound : Sound v'
  seen : Survives (WrittenByte f pos len src) v v'
  inode : v'.inode = v.inode
  valid : v.Valid f
  isReg : (v.inode f).isReg = true
  meta_ : SameMeta (v.inode f) n
  keep : ∀ k < numPtrs, v.ptr f k ≠ 0 → n.directPtr k = v.ptr f k
  pending : Owned maxDnum (v'.setInode f n)

section Tearing

variable {f pos len k j : ℕ} {src : Bytes} {v v' : Vol} {n : Inode}

theorem Tearing.start (pos len : ℕ) (src : Bytes) (h : Sound v) (hf : v.Valid f)
    (hreg : (v.inode f).isReg = true) :
    Tearing f pos len src v (v.inode f) v where
  sound := h
  seen := .refl _ v
  inode := rfl
  valid := hf
  isReg := hreg
  meta_ := ⟨rfl, rfl, rfl, rfl, rfl⟩
  keep _ _ _ := rfl
  pending := h.owned.touch hf ⟨rfl, rfl, rfl, fun _ _ => rfl⟩

theorem pending_ptr (hk : k < numPtrs) : (v'.setInode f n).ptr f k = n.directPtr k := by
  rw [Vol.ptr, Vol.setInode_self, n.sameCore_norm.directPtr k hk]

section

variable (h : Tearing f pos len src v n v')

include h

theorem Tearing.valid' : v'.Valid f := by
  rw [Vol.Valid, h.inode]
  exact h.valid

theorem Tearing.lt : f < maxInum := (h.sound.owned.ibit_of_valid f h.valid').1

theorem Tearing.mem_valid : n.valid ≠ 0 := by
  rw [h.meta_.valid]
  exact h.valid

theorem Tearing.pending_valid : (v'.setInode f n).Valid f := by
  rw [Vol.Valid, Vol.setInode_self, n.sameCore_norm.valid]
  exact h.mem_valid

theorem Tearing.ptr_used (hk : k < numPtrs) (hp : n.directPtr k ≠ 0) :
    ∃ j < maxDnum, n.directPtr k = 67 + j ∧ v'.dbit j = true := by
  have hused := h.pending.ptr_used f k h.pending_valid hk (by rwa [pending_ptr hk])
  rwa [pending_ptr hk] at hused

/-- The blocks of the file are at their places. -/
theorem Tearing.ptr_inj {k' : ℕ} (hk : k < numPtrs) (hk' : k' < numPtrs) (hp : n.directPtr k ≠ 0)
    (heq : n.directPtr k = n.directPtr k') : k = k' := by
  refine (h.pending.ptr_inj f k f k' h.pending_valid h.pending_valid hk hk' ?_ ?_).2
  · rwa [pending_ptr hk]
  · rwa [pending_ptr hk, pending_ptr hk']

/-- No other inode has a block of the file. -/
theorem Tearing.ptr_ne {i k' : ℕ} (hne : i ≠ f) (hi : v'.Valid i) (hk : k < numPtrs)
    (hk' : k' < numPtrs) (hp : n.directPtr k ≠ 0) : v'.ptr i k' ≠ n.directPtr k := by
  intro heq
  have hother : (v'.setInode f n).inode i = v'.inode i := v'.setInode_of_ne hne n
  refine hne (h.pending.ptr_inj f k i k' h.pending_valid ?_ hk hk' ?_ ?_).1.symm
  · rwa [Vol.Valid, hother]
  · rwa [pending_ptr hk]
  · rw [pending_ptr hk, Vol.ptr, hother]
    exact heq.symm

/-- The loop takes a block for an unset pointer, in memory. -/
theorem Tearing.attach (hk : k < numPtrs) (h0 : n.directPtr k = 0) (hj : j < maxDnum)
    (hfree : v'.dbit j = false) :
    Tearing f pos len src v (n.setDirectPtr k (67 + j)) (v'.markBlk j) := by
  have hb : 67 + j < 2 ^ 32 := by
    unfold maxDnum at hj
    omega
  have hatt := attached_setDirectPtr n hk hb
  have hc := n.sameCore_norm
  have hatt' : Attached ((v'.setInode f n).inode f) (n.setDirectPtr k (67 + j)) k (67 + j) := by
    rw [Vol.setInode_self]
    exact ⟨hatt.ino.trans hc.ino.symm, hatt.valid.trans hc.valid.symm,
      hatt.stMode.trans hc.stMode.symm, hatt.ptr_self, fun k' hk' hne =>
        (hatt.ptr_of_ne k' hk' hne).trans (hc.directPtr k' hk').symm⟩
  have hidem : ((v'.setInode f n).markBlk j).setInode f (n.setDirectPtr k (67 + j))
      = (v'.markBlk j).setInode f (n.setDirectPtr k (67 + j)) := by
    unfold Vol.setInode Vol.markBlk
    rw [Function.update_idem]
  obtain ⟨hsound, hseen⟩ := h.sound.taken (WrittenByte f pos len src) j
  have hmeta : SameMeta n (n.setDirectPtr k (67 + j)) := by
    unfold numPtrs at hk
    refine ⟨hatt.ino, hatt.valid, hatt.stMode, ?_, ?_⟩
    · exact loadLe_storeLe_of_disjoint _ (by omega)
    · exact loadLe_storeLe_of_disjoint _ (by omega)
  refine ⟨hsound, h.seen.trans hseen, h.inode, h.valid, h.isReg, h.meta_.trans hmeta, ?_, ?_⟩
  · intro k' hk' hp
    have hold := h.keep k' hk' hp
    rw [hatt.ptr_of_ne k' hk' ?_, hold]
    -- a pointer that was set on disk is set in memory
    rintro rfl
    rw [h0] at hold
    exact hp hold.symm
  · rw [← hidem]
    exact h.pending.attach h.pending_valid hj hfree hatt'

/-- The loop copies bytes into a block of the file. -/
theorem Tearing.copy (hk : k < numPtrs) (hp : n.directPtr k ≠ 0) {off m w : ℕ}
    (hpos : 0 < m → k * blockSize + off = pos + w) (hlen : w + m ≤ len) :
    Tearing f pos len src v n (v'.setData (n.directPtr k)
      (memcpy (v'.data (n.directPtr k)) off (fun x => src (w + x)) m)) := by
  obtain ⟨j, hj, hjk, hbit⟩ := h.ptr_used hk hp
  set blk := memcpy (v'.data (n.directPtr k)) off (fun x => src (w + x)) m with hblk
  -- the other inodes, and the other blocks of this one, keep their data
  have hother : ∀ i k', i ≠ f → v'.Valid i → k' < numPtrs →
      (v'.setData (n.directPtr k) blk).data (v'.ptr i k') = v'.data (v'.ptr i k') :=
    fun i k' hne hi hk' => Function.update_of_ne (h.ptr_ne hne hi hk hk' hp) _ _
  have hdir : ∀ i, (v'.inode i).isDir = true → i ≠ f := by
    rintro i hd rfl
    rw [h.inode] at hd
    have hreg := h.isReg
    rw [Inode.isReg_of_isDir hd] at hreg
    exact absurd hreg (by decide)
  have hlookup : ∀ i c, v'.Valid i → (v'.inode i).isDir = true →
      (v'.setData (n.directPtr k) blk).lookup i c = v'.lookup i c := fun i c hi hd =>
    Vol.lookup_congr (fun _ _ => rfl) fun k' hk' _ => hother i k' (hdir i hd) hi hk'
  have howned : Owned maxDnum (v'.setData (n.directPtr k) blk) := by
    rw [hjk]
    exact h.sound.owned.setData hbit _
  have hsound : Sound (v'.setData (n.directPtr k) blk) :=
    h.sound.congr howned (fun _ => Iff.rfl) (fun _ _ => rfl) hlookup fun _ => id
  have hseen : Survives (WrittenByte f pos len src) v' (v'.setData (n.directPtr k) blk) := by
    refine ⟨⟨fun _ => Iff.rfl, fun _ _ => rfl, fun i c hi hd => .inl (hlookup i c hi hd)⟩,
      fun _ _ _ => rfl, ?_⟩
    intro i p hi _ hpmax
    by_cases hif : i = f
    · subst hif
      have hpk := div_blockSize_lt hpmax
      by_cases hblock : (v'.inode i).directPtr (p / blockSize) = n.directPtr k
      · -- a byte of the block that was written
        have hptr : v.ptr i (p / blockSize) = n.directPtr k := by
          rw [Vol.ptr, ← h.inode]
          exact hblock
        have hkeep := h.keep _ hpk (by rwa [hptr])
        have hdiv : p / blockSize = k := h.ptr_inj hpk hk (by rwa [hkeep, hptr]) (hkeep.trans hptr)
        have hpmod : p = k * blockSize + p % blockSize := by
          rw [← hdiv, Nat.mul_comm]
          exact (Nat.div_add_mod p blockSize).symm
        unfold content
        rw [hblock, if_neg hp, if_neg hp, Vol.setData_data, Function.update_self, hblk]
        unfold memcpy
        generalize p % blockSize = o at hpmod ⊢
        by_cases hin : off ≤ o ∧ o < off + m
        · rw [if_pos hin]
          have hstart := hpos (by omega)
          have hsrc : w + (o - off) = p - pos := by omega
          refine .inr ⟨rfl, by omega, by omega, ?_⟩
          exact congrArg src hsrc
        · rw [if_neg hin]
          exact .inl rfl
      · exact .inl (content_congr rfl fun _ => Function.update_of_ne hblock _ _)
    · exact .inl (content_congr rfl fun _ => hother i _ hif hi (div_blockSize_lt hpmax))
  refine ⟨hsound, h.seen.trans hseen, h.inode, h.valid, h.isReg, h.meta_, h.keep, ?_⟩
  have hpend : (v'.setInode f n).dbit j = true := hbit
  have hset := h.pending.setData hpend blk
  rw [← hjk] at hset
  exact hset

/-- **The inode is written back.** -/
theorem Tearing.finish {n' : Inode} (hn : n.SameCore n') :
    Sound (v'.setInode f n') ∧ SameNames v (v'.setInode f n') := by
  have hcore := hn.trans n'.sameCore_norm
  have hself : (v'.setInode f n').inode f = n'.norm := Vol.setInode_self _ _ _
  have hne : ∀ i, i ≠ f → (v'.setInode f n').inode i = v'.inode i := fun i hi =>
    v'.setInode_of_ne hi n'
  have hvalid : ∀ i, (v'.setInode f n').Valid i ↔ v'.Valid i := by
    intro i
    by_cases hi : i = f
    · rw [hi, Vol.Valid, hself, hcore.valid]
      exact iff_of_true h.mem_valid h.valid'
    · rw [Vol.Valid, hne i hi]
  have hmode : ∀ i, ((v'.setInode f n').inode i).stMode = (v'.inode i).stMode := by
    intro i
    by_cases hi : i = f
    · rw [hi, hself, hcore.stMode, h.meta_.stMode, h.inode]
    · rw [hne i hi]
  have hdir : ∀ i, ((v'.setInode f n').inode i).isDir = (v'.inode i).isDir := fun i => by
    rw [Inode.isDir, Inode.isDir, hmode]
  have hlookup : ∀ i c, v'.Valid i → (v'.inode i).isDir = true →
      (v'.setInode f n').lookup i c = v'.lookup i c := by
    intro i c hi hd
    have hif : i ≠ f := by
      rintro rfl
      rw [h.inode] at hd
      have hreg := h.isReg
      rw [Inode.isReg_of_isDir hd] at hreg
      exact absurd hreg (by decide)
    refine Vol.lookup_congr (fun k _ => ?_) fun _ _ _ => rfl
    rw [Vol.ptr, hne i hif]
  have howned : Owned maxDnum (v'.setInode f n') := by
    have hcore' : ((v'.setInode f n).inode f).SameCore n' := by
      have hc := n.sameCore_norm
      rw [Vol.setInode_self]
      exact ⟨hn.ino.trans hc.ino.symm, hn.valid.trans hc.valid.symm, hn.stMode.trans hc.stMode.symm,
        fun k hk => (hn.directPtr k hk).trans (hc.directPtr k hk).symm⟩
    have hidem : (v'.setInode f n).setInode f n' = v'.setInode f n' := by
      unfold Vol.setInode
      rw [Function.update_idem]
    rw [← hidem]
    exact h.pending.touch h.pending_valid hcore'
  refine ⟨h.sound.congr howned hvalid (fun i _ => hdir i) hlookup fun _ => id,
    fun i => (hvalid i).trans (h.seen.valid_iff i), fun i hi => ?_, fun i c hi hd => ?_⟩
  · rw [hmode]
    exact h.seen.stMode i hi
  · rw [hlookup i c ((h.seen.valid_iff i).mpr hi) ((h.seen.isDir hi).trans hd)]
    exact h.seen.entry i c hi hd

end

end Tearing

end Rufs
