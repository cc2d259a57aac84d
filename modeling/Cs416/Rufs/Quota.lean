import Cs416.Rufs.Listing
import Cs416.Rufs.NamespaceRuns

/-!
# What a call returns

Whether a `mkdir` or `create` succeeds follows from the calls before it, and neither from the
disk nor from what they wrote. `Quota` is a file system without a disk: it says what each path
is, counts the entries of each directory, and the inode numbers that were taken. A number is taken
as soon as the parent is a directory, and is never given back. `makes_predicted` says that it
returns what RUFS returns, call by call.
-/

open ByteMem Function Lts Scan

namespace Rufs

/-- The calls so far, as far as they matter for the next one. -/
structure Quota where
  kindAt : List Name → Option Kind
  size : List Name → ℕ
  taken : ℕ

namespace Quota

/-- A new file system. The root has an inode number. -/
def init : Quota where
  kindAt p := if p = [] then some .dir else none
  size _ := 0
  taken := 1

/-- The name fits into the directory. -/
def Fits (q : Quota) (P : List Name) (c : Name) : Prop :=
  c.length ≤ nameMax ∧ q.kindAt (P ++ [c]) = none ∧ q.size P < numEnts

instance (q : Quota) (P : List Name) (c : Name) : Decidable (q.Fits P c) :=
  inferInstanceAs (Decidable (_ ∧ _ ∧ _))

/-- `mkdir` or `create`: whether it succeeds, and what it leaves. -/
def make (q : Quota) (kind : Kind) (P : List Name) (c : Name) : Bool × Quota :=
  if q.kindAt P = some .dir ∧ q.taken < maxInum then
    if q.Fits P c then
      (true,
        { kindAt := update q.kindAt (P ++ [c]) (some kind)
          size := update q.size P (q.size P + 1)
          taken := q.taken + 1 })
    else (false, { q with taken := q.taken + 1 })
  else (false, q)

/-- A call. -/
def call (q : Quota) : Op → Bool × Quota
  | .mkdir path _ _ => q.make .dir (tokens (dirname path.bytes)) (basename path.bytes)
  | .create path _ _ => q.make .file (tokens (dirname path.bytes)) (basename path.bytes)
  | _ => (false, q)

/-- A sequence of calls: which of them make something. -/
def run (q : Quota) : List Op → List Bool × Quota
  | [] => ([], q)
  | op :: ops => ((q.call op).1 :: ((q.call op).2.run ops).1, ((q.call op).2.run ops).2)

end Quota

/-- The call made a file or a directory. -/
def Call.made (c : Call) : Bool :=
  match c.op, c.result with
  | .mkdir _ _ _, .code r => r == 0
  | .create _ _ _, .code r => r == 0
  | _, _ => false

/-- The inode numbers that are taken. -/
def Vol.taken (v : Vol) : ℕ := ((Finset.range maxInum).filter fun j => v.ibit j = true).card

section Taken

variable {v v' : Vol} {j N mode : ℕ} {kind : Kind} {P : List Name} {c : Name} {ok : Bool}

theorem Vol.taken_congr (h : v'.ibit = v.ibit) : v'.taken = v.taken := by
  unfold taken
  rw [h]

theorem Vol.taken_markIno (hj : j < maxInum) (hbit : v.ibit j = false) :
    (v.markIno j).taken = v.taken + 1 := by
  unfold taken
  have hinsert : (Finset.range maxInum).filter (fun k => (v.markIno j).ibit k = true)
      = insert j ((Finset.range maxInum).filter fun k => v.ibit k = true) := by
    ext k
    simp only [Finset.mem_filter, Finset.mem_range, Finset.mem_insert, Vol.markIno_ibit,
      update_apply]
    by_cases hk : k = j
    · simp [hk, hj]
    · simp [hk]
  rw [hinsert, Finset.card_insert_of_notMem]
  simp [hbit]

/-- Numbers are left when a bit is clear. -/
theorem Vol.taken_lt_iff : v.taken < maxInum ↔ ∃ j < maxInum, v.ibit j = false := by
  have hle : v.taken ≤ maxInum := by
    refine (Finset.card_filter_le _ _).trans ?_
    rw [Finset.card_range]
  constructor
  · intro hlt
    by_contra hnone
    refine absurd hlt (not_lt.mpr ?_)
    unfold taken
    rw [Finset.filter_true_of_mem, Finset.card_range]
    intro j hj
    by_contra hbit
    exact hnone ⟨j, Finset.mem_range.mp hj, by simpa using hbit⟩
  · rintro ⟨j, hj, hbit⟩
    have hmark := Vol.taken_markIno hj hbit
    have hle' : (v.markIno j).taken ≤ maxInum := by
      refine (Finset.card_filter_le _ _).trans ?_
      rw [Finset.card_range]
    omega

/-- **A number is taken when the parent is a directory**, whether the call succeeds or not. -/
theorem MakeOutcome.taken (h : MakeOutcome N v kind mode P c ok v') : v'.taken = v.taken +
    if v.kindAt P = some .dir ∧ v.taken < maxInum then 1 else 0 := by
  have hdir : v.kindAt P = some .dir ↔ ∃ i, v.resolve P = some i ∧ (v.inode i).isDir = true := by
    rw [← Vol.kindAt_dir]
    simp
  -- behind `get_avail_ino` the bit stays set
  have hone : ∀ {i j : ℕ} {v₁ : Vol}, v.resolve P = some i → (v.inode i).isDir = true →
      j < maxInum → v.ibit j = false → v₁.ibit = (v.markIno j).ibit →
      v₁.taken = v.taken + if v.kindAt P = some .dir ∧ v.taken < maxInum then 1 else 0 := by
    intro i j v₁ hres hd hj hbit hib
    rw [if_pos ⟨hdir.mpr ⟨i, hres, hd⟩, Vol.taken_lt_iff.mpr ⟨j, hj, hbit⟩⟩, Vol.taken_congr hib,
      Vol.taken_markIno hj hbit]
  cases h with
  | failed _ hout =>
    cases hout with
    | noParent hno =>
      rw [if_neg, Nat.add_zero]
      rintro ⟨hkind, -⟩
      obtain ⟨i, hres, hd⟩ := hdir.mp hkind
      rw [hno i hres] at hd
      exact absurd hd (by decide)
    | noIno i _ _ hall =>
      rw [if_neg, Nat.add_zero]
      rintro ⟨-, hlt⟩
      obtain ⟨j, hj, hbit⟩ := Vol.taken_lt_iff.mp hlt
      rw [hall j hj] at hbit
      exact absurd hbit (by decide)
    | notAdded i j _ hres hd hj hbit hout => exact hone hres hd hj hbit hout.ibit
  | madeDir i j b n v₁ _ hout _ _ _ _ =>
    have hent := hout.entered'
    refine hone hent.parent hent.isDir hent.lt hent.free ?_
    rw [Vol.setInode_ibit, Vol.markBlk_ibit, hent.added.ibit]
  | madeFile i j n v₁ _ hout _ =>
    have hent := hout.entered'
    refine hone hent.parent hent.isDir hent.lt hent.free ?_
    rw [Vol.setInode_ibit, hent.added.ibit]

end Taken

/-! ### The invariant -/

/-- **The quota knows the file system.** -/
structure Predicted (s : Fs) (q : Quota) : Prop where
  tidy : Tidy s
  listed : Listed s
  kindAt : ∀ p, s.vol.kindAt p = q.kindAt p
  size : ∀ P i, s.vol.resolve P = some i → (s.vol.inode i).isDir = true →
    (entries s (s.vol.inode i)).length = q.size P
  /-- A path that nothing has been made at has no entries. -/
  fresh : ∀ P, q.kindAt P = none → q.size P = 0
  taken : s.vol.taken = q.taken

section Predicted

variable {s s' : Fs} {q : Quota} {mode i : ℕ} {kind : Kind} {P : List Name} {c d : Name} {ok : Bool}

/-- The entries of a directory are the names of the paths below it. -/
theorem mem_entries_iff (h : Tidy s) (hl : Listed s) (hres : s.vol.resolve P = some i)
    (hd : (s.vol.inode i).isDir = true) :
    d ∈ entries s (s.vol.inode i) ↔ s.vol.kindAt (P ++ [d]) ≠ none := by
  have hv := Vol.resolve_valid h.good.rooted hres
  rw [hl.mem_entries hv hd, dirFind_eq h.good.mounted h.good.owned hv, Vol.kindAt,
    Ne, Option.map_eq_none_iff, ← Ne, Option.ne_none_iff_exists']
  simp only [Vol.resolve_concat_eq_some]
  constructor
  · rintro ⟨j, hj⟩
    exact ⟨j, i, hres, hd, hj, (h.named.valid i d j hv hd hj).1⟩
  · rintro ⟨j, i', hres', -, hj, -⟩
    rw [hres] at hres'
    obtain rfl := Option.some.inj hres'
    exact ⟨j, hj⟩

/-- A directory keeps its number of entries when the paths below it stay. -/
theorem length_entries_eq (h : Tidy s) (hl : Listed s) (h' : Tidy s') (hl' : Listed s')
    {i' : ℕ} (hres : s.vol.resolve P = some i) (hd : (s.vol.inode i).isDir = true)
    (hres' : s'.vol.resolve P = some i') (hd' : (s'.vol.inode i').isDir = true)
    (hsame : ∀ d, s'.vol.kindAt (P ++ [d]) = s.vol.kindAt (P ++ [d])) :
    (entries s' (s'.vol.inode i')).length = (entries s (s.vol.inode i)).length := by
  refine List.Perm.length_eq ((List.perm_ext_iff_of_nodup ?_ ?_).mpr fun d => ?_)
  · exact hl'.nodup (Vol.resolve_valid h'.good.rooted hres') hd'
  · exact hl.nodup (Vol.resolve_valid h.good.rooted hres) hd
  · rw [mem_entries_iff h' hl' hres' hd', mem_entries_iff h hl hres hd, hsame]

/-- It has one more when one path is added. -/
theorem length_entries_succ (h : Tidy s) (hl : Listed s) (h' : Tidy s') (hl' : Listed s')
    {i' : ℕ} (hres : s.vol.resolve P = some i) (hd : (s.vol.inode i).isDir = true)
    (hres' : s'.vol.resolve P = some i') (hd' : (s'.vol.inode i').isDir = true)
    (hnew : s.vol.kindAt (P ++ [c]) = none) (hmade : s'.vol.kindAt (P ++ [c]) ≠ none)
    (hsame : ∀ d, d ≠ c → s'.vol.kindAt (P ++ [d]) = s.vol.kindAt (P ++ [d])) :
    (entries s' (s'.vol.inode i')).length = (entries s (s.vol.inode i)).length + 1 := by
  have hnodup := hl.nodup (Vol.resolve_valid h.good.rooted hres) hd
  have hc : c ∉ entries s (s.vol.inode i) := by
    rw [mem_entries_iff h hl hres hd, not_not]
    exact hnew
  rw [← List.length_cons (a := c)]
  refine List.Perm.length_eq ((List.perm_ext_iff_of_nodup ?_ ?_).mpr fun d => ?_)
  · exact hl'.nodup (Vol.resolve_valid h'.good.rooted hres') hd'
  · exact List.nodup_cons.mpr ⟨hc, hnodup⟩
  · rw [mem_entries_iff h' hl' hres' hd', List.mem_cons, mem_entries_iff h hl hres hd]
    by_cases hdc : d = c
    · rw [hdc]
      simp [hmade]
    · rw [hsame d hdc]
      simp [hdc]

/-- The quota takes a directory for one, and knows whether a name fits. -/
theorem Predicted.dir_iff (h : Predicted s q) :
    q.kindAt P = some .dir ↔ ∃ i, s.vol.resolve P = some i ∧ (s.vol.inode i).isDir = true := by
  rw [← h.kindAt, ← Vol.kindAt_dir]
  simp

theorem Predicted.fits_iff (h : Predicted s q) (hres : s.vol.resolve P = some i)
    (hd : (s.vol.inode i).isDir = true) : q.Fits P c ↔ c.length ≤ nameMax ∧
      s.vol.lookup i c = none ∧
      ((∃ k < numEnts, s.vol.slot (s.vol.inode i) entFree k = true) ∨
        ∃ m < numPtrs, s.vol.ptr i m = 0) := by
  have hv := Vol.resolve_valid h.tidy.good.rooted hres
  rw [← length_entries_lt h.tidy.good.owned hv, h.size P i hres hd]
  refine and_congr_right fun hl => and_congr_left fun _ => ?_
  rw [← not_mem_entries h.tidy.good.owned hv hl, mem_entries_iff h.tidy h.listed hres hd, not_not,
    h.kindAt]

/-- A call that changes no path may take a number. -/
theorem Predicted.same (h : Predicted s q) (h' : Tidy s') (hl' : Listed s') (hsame : SameTree s s')
    {n : ℕ} (hn : s'.vol.taken = n) : Predicted s' { q with taken := n } where
  tidy := h'
  listed := hl'
  kindAt p := (hsame.kindAt p).trans (h.kindAt p)
  size P i hres hd := by
    have hres₀ : s.vol.resolve P = some i := by rwa [← hsame.resolve]
    have hd₀ : (s.vol.inode i).isDir = true := by rwa [← hsame.isDir]
    rw [length_entries_eq h.tidy h.listed h' hl' hres₀ hd₀ hres hd fun d => hsame.kindAt _]
    exact h.size P i hres₀ hd₀
  fresh := h.fresh
  taken := hn

/-- A call that makes a path. -/
theorem Predicted.grown (h : Predicted s q) (h' : Tidy s') (hl' : Listed s') {j n : ℕ}
    (hgrown : Grown s.vol kind P c i j s'.vol) (hn : s'.vol.taken = n) :
    Predicted s'
      { kindAt := update q.kindAt (P ++ [c]) (some kind)
        size := update q.size P (q.size P + 1)
        taken := n } := by
  have hrooted := h.tidy.good.rooted
  obtain ⟨hp, hnew, htree⟩ := hgrown.tree hrooted h'.good.rooted h.tidy.named
  have hat : ∀ p, s'.vol.kindAt p = update s.vol.kindAt (P ++ [c]) (some kind) p := fun p =>
    congrArg (fun t => t.at_ p) htree
  have hnone : s.vol.kindAt (P ++ [c]) = none := hnew
  have hother : ∀ p, p ≠ P ++ [c] → s'.vol.kindAt p = s.vol.kindAt p := fun p hne => by
    rw [hat, update_of_ne hne]
  refine ⟨h', hl', fun p => ?_, fun P' i' hres' hd' => ?_, fun P' hP' => ?_, hn⟩
  · rw [hat]
    simp only [update_apply, h.kindAt]
  · by_cases hnewdir : P' = P ++ [c]
    · -- the new directory has no entries
      subst hnewdir
      dsimp only
      have hne : P ++ [c] ≠ P := by simp
      rw [update_of_ne hne, h.fresh _ (by rw [← h.kindAt]; exact hnone), List.length_eq_zero_iff,
        List.eq_nil_iff_forall_not_mem]
      intro d hmem
      rw [mem_entries_iff h' hl' hres' hd', hother _ (by simp)] at hmem
      exact hmem ((s.vol.tree hrooted).at_append_eq_none hnone [d])
    · have hres : s.vol.resolve P' = some i' := by
        rwa [hgrown.resolve hrooted h.tidy.named, if_neg hnewdir] at hres'
      have hne : i' ≠ j := by
        rintro rfl
        exact hgrown.invalid (Vol.resolve_valid hrooted hres)
      have hd : (s.vol.inode i').isDir = true := by rwa [← hgrown.isDir_eq i' hne]
      have hsize := h.size P' i' hres hd
      by_cases hparent : P' = P
      · -- the parent has one entry more
        subst hparent
        dsimp only
        rw [update_self, ← hsize]
        refine length_entries_succ h.tidy h.listed h' hl' hres hd hres' hd' hnone ?_ fun d hdc => ?_
        · rw [hat, update_self]
          exact Option.some_ne_none kind
        · exact hother _ (by simp [hdc])
      · dsimp only
        rw [update_of_ne hparent, ← hsize]
        refine length_entries_eq h.tidy h.listed h' hl' hres hd hres' hd' fun d => hother _ ?_
        intro heq
        exact hparent (List.append_inj' heq rfl).1
  · dsimp only at hP' ⊢
    have hne : P' ≠ P ++ [c] := by
      rintro rfl
      rw [update_self] at hP'
      exact absurd hP' (by simp)
    rw [update_of_ne hne] at hP'
    have hP : P' ≠ P := by
      rintro rfl
      rw [← h.kindAt, Vol.kindAt, hgrown.parent] at hP'
      exact absurd hP' (by simp)
    rw [update_of_ne hP]
    exact h.fresh P' hP'

/-- **The quota predicts a `mkdir` or `create`.** -/
theorem Predicted.make (h : Predicted s q) (h' : Tidy s') (hl' : Listed s') (hm : mode < 2 ^ 12)
    (hout : MakeOutcome maxDnum s.vol kind mode P c ok s'.vol) :
    (q.make kind P c).1 = ok ∧ Predicted s' (q.make kind P c).2 := by
  have htaken := hout.taken
  rw [h.kindAt, h.taken] at htaken
  have hok := hout.ok_iff
  have hsame : ok = false → SameTree s s' := by
    rintro rfl
    obtain ⟨hi, hd⟩ := hout.unchanged
    exact sameTree_of_unchanged h.tidy hi hd
  unfold Quota.make
  split
  · next hstart =>
    obtain ⟨i, hres, hd⟩ := h.dir_iff.mp hstart.1
    have hfree := Vol.taken_lt_iff.mp (by rw [h.taken]; exact hstart.2)
    have hfits : ok = true ↔ q.Fits P c := by
      rw [hok, h.fits_iff hres hd]
      constructor
      · rintro ⟨i', hres', -, hl, hnew, hroom, -⟩
        rw [hres] at hres'
        obtain rfl := Option.some.inj hres'
        exact ⟨hl, hnew, hroom⟩
      · rintro ⟨hl, hnew, hroom⟩
        exact ⟨i, hres, hd, hl, hnew, hroom, hfree⟩
    rw [if_pos hstart] at htaken
    split
    · next hfit =>
      obtain rfl := hfits.mpr hfit
      obtain ⟨i₀, j, hgrown⟩ := hout.grown h.tidy.good.owned h.tidy.good.rooted hm
      exact ⟨rfl, h.grown h' hl' hgrown htaken⟩
    · next hfit =>
      have hf : ok = false := by simpa using fun hk => hfit (hfits.mp hk)
      exact ⟨hf.symm, h.same h' hl' (hsame hf) htaken⟩
  · next hstop =>
    have hf : ok = false := by
      by_contra hk
      obtain ⟨i, hres, hd, -, -, -, hfree⟩ := hok.mp (by simpa using hk)
      have hlt := Vol.taken_lt_iff.mpr hfree
      rw [h.taken] at hlt
      exact hstop ⟨h.dir_iff.mpr ⟨i, hres, hd⟩, hlt⟩
    rw [if_neg hstop] at htaken
    exact ⟨hf.symm, h.same h' hl' (hsame hf) htaken⟩

/-! ### Runs -/

/-- **The quota predicts a call.** -/
theorem Predicted.call (h : Predicted s q) {c : Call} (h' : Tidy s') (hl' : Listed s')
    (hs : treeSystem.step s c s') :
    (q.call c.op).1 = c.made ∧ Predicted s' (q.call c.op).2 := by
  obtain ⟨hs, hop⟩ := hs
  obtain ⟨op, result, e⟩ := c
  have happ : apply s op = some (result, s', e) := hs
  -- the outcome of the call, and its return value
  have hmade : ∀ {r : ℤ} {ok : Bool}, (if ok = true then r = 0 else r < 0) → (r == 0) = ok := by
    intro r ok hr
    cases ok with
    | true => exact beq_iff_eq.mpr hr
    | false =>
      have hneg : r < 0 := by simpa using hr
      simp only [beq_eq_false_iff_ne]
      omega
  cases op with
  | mkdir path mode env =>
    obtain ⟨⟨p, rfl⟩, hmode⟩ := hop
    have had : Admits maxDnum (rufsMkdir s p.toCPath.bytes mode.toNat env).2.2 := .inl rfl
    obtain ⟨r, s₁, e₁, ok, hmk, -, -, hr, hout⟩ := rufsMkdir_spec h.tidy.good.mounted
      h.tidy.good.owned h.tidy.good.rooted h.tidy.good.charged (uint32_lt mode) had
    obtain ⟨rfl, heq⟩ : Result.code (rufsMkdir s p.toCPath.bytes mode.toNat env).1 = result ∧
        (rufsMkdir s p.toCPath.bytes mode.toNat env).2 = (s', e) := by simpa [apply] using happ
    rw [hmk] at heq
    obtain ⟨rfl, rfl⟩ := Prod.mk.inj heq
    obtain ⟨hcode, hpred⟩ := h.make h' hl' hmode hout
    refine ⟨hcode.trans ?_, hpred⟩
    simp only [Call.made, hmk, hmade hr]
  | create path mode env =>
    obtain ⟨⟨p, rfl⟩, hmode⟩ := hop
    have had : Admits maxDnum (rufsCreate s p.toCPath.bytes mode.toNat env).2.2 := .inl rfl
    obtain ⟨r, s₁, e₁, ok, hmk, -, -, hr, hout⟩ := rufsCreate_spec h.tidy.good.mounted
      h.tidy.good.owned h.tidy.good.rooted h.tidy.good.charged (uint32_lt mode) had
    obtain ⟨rfl, heq⟩ : Result.code (rufsCreate s p.toCPath.bytes mode.toNat env).1 = result ∧
        (rufsCreate s p.toCPath.bytes mode.toNat env).2 = (s', e) := by simpa [apply] using happ
    rw [hmk] at heq
    obtain ⟨rfl, rfl⟩ := Prod.mk.inj heq
    obtain ⟨hcode, hpred⟩ := h.make h' hl' hmode hout
    refine ⟨hcode.trans ?_, hpred⟩
    simp only [Call.made, hmk, hmade hr]
  -- a write makes nothing
  | write path buffer size offset env =>
    obtain ⟨⟨r, s₁, e₁⟩, hw, heq⟩ := Option.map_eq_some_iff.mp happ
    obtain ⟨rfl, rfl, rfl⟩ : Result.code r = result ∧ s₁ = s' ∧ e₁ = e := by simpa using heq
    obtain ⟨-, -, ⟨rfl, -, -⟩ | ⟨f, len, -, hreg, rfl, -, hwr⟩⟩ := rufsWrite_spec
      h.tidy.good.mounted h.tidy.good.owned h.tidy.good.rooted h.tidy.good.charged hw (.inl rfl)
    · exact ⟨rfl, h⟩
    · have hsame : SameTree s s₁ := .of_congr h.tidy hwr.valid_iff hwr.isDir
        fun i c hi hd => hwr.lookup hreg hi hd c
      exact ⟨rfl, h.same h' hl' hsame ((Vol.taken_congr hwr.ibit).trans h.taken)⟩
  | getattr _ => exact absurd hop id
  | opendir _ => exact absurd hop id
  | readdir _ => exact absurd hop id
  | «open» _ => exact absurd hop id
  | read _ _ _ _ => exact absurd hop id

end Predicted

/-- What `is_dir` says of a node. -/
def Inode.kind (n : Inode) : Kind := if n.isDir then .dir else .file

end Rufs
