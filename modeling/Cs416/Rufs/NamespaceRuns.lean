import Cs416.Rufs.Safety
import Cs416.Rufs.TreeRefinement

/-!
# The namespace over whole runs

`treeSystem` are the runs of `mkdir`, `create` and `write` with paths as FUSE passes them and
modes that carry permission bits only. `Tidy` is their invariant, `tidy_step` the step lemma,
and `run_kindAt` says over a whole run what a path is: the root, or what the call that made it
made. `namespace_refines` collects what a caller sees through `get_node_by_path`.
-/

open ByteMem Scan Lts

namespace Rufs

/-! ### The runs -/

/-- The calls considered. -/
def TreeOp : Op → Prop
  | .mkdir path mode _ => (∃ p : TreePath, path = p.toCPath) ∧ mode.toNat < 2 ^ 12
  | .create path mode _ => (∃ p : TreePath, path = p.toCPath) ∧ mode.toNat < 2 ^ 12
  | .write path _ _ offset _ => (∃ p : TreePath, path = p.toCPath) ∧ offset.toNat < 2 ^ 43
  | _ => False

def treeSystem : System Fs Call := system.restrict fun _ c => TreeOp c.op

/-- The call makes a node at `p`, for an operation that is `mkdir` (`Kind.dir`) or `create`
(`Kind.file`). -/
def Makes (kind : Kind) (p : TreePath) : Op → Prop
  | .mkdir path _ _ => kind = .dir ∧ path = p.toCPath
  | .create path _ _ => kind = .file ∧ path = p.toCPath
  | _ => False

/-- A call of the run made a node at `p`. -/
def MadeBy (cs : List Call) (kind : Kind) (p : TreePath) : Prop :=
  ∃ c ∈ cs, Makes kind p c.op ∧ c.result = .code 0

/-- The node that `get_node_by_path` finds. -/
def node (s : Fs) (p : TreePath) : Option Inode := (getNodeByPath s p.toCPath.bytes 0).1

/-- What `mkdir` and `create` return. -/
def makeCode (s : Fs) (kind : Kind) (p : TreePath) (mode : ℕ) (env : Env) : ℤ :=
  match kind with
  | .dir => (rufsMkdir s p.toCPath.bytes mode env).1
  | .file => (rufsCreate s p.toCPath.bytes mode env).1

/-- The name `c` fits into the directory at the path `parent`. -/
def EntryFits (s : Fs) (parent : TreePath) (c : Name) : Prop :=
  ∃ dir, node s parent = some dir ∧ dir.isDir = true ∧ c.length ≤ nameMax ∧ c ∉ entries s dir ∧
    (entries s dir).length < 16 * 19 ∧ ∃ i < maxInum, getBitmap (s.disk s.sb.iBitmapBlk) i = 0

/-! ### The target of a call -/

section Paths

variable {p : TreePath} {P : List Name} {c : Name}

theorem TreePath.ext {p q : TreePath} (h : p.comps = q.comps) : p = q := by
  cases p
  cases q
  congr

theorem TreePath.tokens_bytes (p : TreePath) : tokens p.toCPath.bytes = p.comps := by
  change tokens (pathBytes p.comps) = p.comps
  unfold pathBytes
  split
  · next h => rw [h, tokens_root]
  · exact tokens_render p.names

theorem toCPath_inj {p q : TreePath} (h : p.toCPath = q.toCPath) : p = q := by
  refine TreePath.ext ?_
  rw [← p.tokens_bytes, h, q.tokens_bytes]

/-- The parent and the name of a path below the root. -/
theorem TreePath.split (h : p.comps = P ++ [c]) :
    tokens (dirname p.toCPath.bytes) = P ∧ basename p.toCPath.bytes = c ∧
      (pathBytes P).length < pathMax ∧ ∀ d ∈ P, IsName d := by
  have hnames := p.names
  rw [h] at hnames
  have hP : ∀ d ∈ P, IsName d := fun d hd => hnames d (List.mem_append_left _ hd)
  have hc : IsName c := hnames c (by simp)
  have hbytes : p.toCPath.bytes = pathBytes (P ++ [c]) := by rw [← h]; rfl
  have hdir : dirname p.toCPath.bytes = pathBytes P := by rw [hbytes, dirname_concat hP hc]
  refine ⟨?_, by rw [hbytes, basename_concat hP hc], ?_, hP⟩
  · rw [hdir]
    unfold pathBytes
    split
    · next h => rw [h, tokens_root]
    · exact tokens_render hP
  · rw [← hdir]
    exact p.toCPath.dirname_short

/-- The path of the parent. -/
def TreePath.parent (p : TreePath) (h : p.comps = P ++ [c]) : TreePath :=
  ⟨P, (TreePath.split h).2.2.2, (TreePath.split h).2.2.1⟩

/-- `mkdir("/")` enters a name that no path has. -/
theorem target_root (h : p.comps = []) (q : TreePath) :
    q.comps ≠ tokens (dirname p.toCPath.bytes) ++ [basename p.toCPath.bytes] := by
  have hbytes : p.toCPath.bytes = [slash] := by
    change pathBytes p.comps = _
    rw [h]
    rfl
  intro hq
  rw [hbytes] at hq
  have hmem : [slash] ∈ q.comps := by
    rw [hq]
    exact List.mem_append_right _ (List.mem_singleton.mpr rfl)
  exact (q.names _ hmem).no_slash (List.mem_singleton.mpr rfl)

/-- The path that a call makes is its argument, unless that is the root. -/
theorem eq_target_iff (p q : TreePath) :
    q.comps = tokens (dirname p.toCPath.bytes) ++ [basename p.toCPath.bytes] ↔
      q = p ∧ p.comps ≠ [] := by
  rcases List.eq_nil_or_concat p.comps with h | ⟨P, c, h⟩
  · exact iff_of_false (target_root h q) fun hand => hand.2 h
  · rw [List.concat_eq_append] at h
    obtain ⟨hP, hc, -⟩ := TreePath.split h
    rw [hP, hc, ← h]
    constructor
    · intro hq
      refine ⟨TreePath.ext hq, ?_⟩
      rw [h]
      simp
    · rintro ⟨rfl, -⟩
      rfl

end Paths

/-! ### The invariant -/

/-- A good file system whose entries name what is there. -/
structure Tidy (s : Fs) : Prop where
  good : Good maxDnum s
  named : Named s.vol

section Step

variable {s s' : Fs} {kind : Kind} {mode : ℕ} {P p : List Name} {c : Name}

theorem Good.node (h : Good maxDnum s) (p : TreePath) :
    node s p = (s.vol.resolve p.comps).map s.vol.inode := by
  have hlookup := (h.lookup p.toCPath).1
  rwa [p.tokens_bytes] at hlookup

/-- Nothing a path sees changed. -/
structure SameTree (s s' : Fs) : Prop where
  resolve : ∀ p, s'.vol.resolve p = s.vol.resolve p
  isDir : ∀ i, (s'.vol.inode i).isDir = (s.vol.inode i).isDir
  named : Named s'.vol

theorem SameTree.kindAt (h : SameTree s s') (p : List Name) :
    s'.vol.kindAt p = s.vol.kindAt p := by
  have hkind : s'.vol.kind = s.vol.kind := by
    funext i
    rw [Vol.kind, Vol.kind, h.isDir]
  rw [Vol.kindAt, Vol.kindAt, h.resolve, hkind]

theorem SameTree.of_congr (h : Tidy s) (hvalid : ∀ i, s'.vol.Valid i ↔ s.vol.Valid i)
    (hdir : ∀ i, (s'.vol.inode i).isDir = (s.vol.inode i).isDir)
    (hlookup : ∀ i c, s.vol.Valid i → (s.vol.inode i).isDir = true →
      s'.vol.lookup i c = s.vol.lookup i c) : SameTree s s' where
  resolve _ := Vol.resolve_congr h.good.rooted hvalid (fun i _ => hdir i) hlookup
  isDir := hdir
  named := h.named.congr hvalid (fun i _ => hdir i) hlookup

/-- A failing `mkdir` or `create` changes no inode and no block. -/
theorem MakeOutcome.unchanged {v v' : Vol}
    (h : MakeOutcome maxDnum v kind mode P c false v') : v'.inode = v.inode ∧ v'.data = v.data := by
  cases h with
  | failed _ hout => exact hout.failed_unchanged

theorem sameTree_of_unchanged (h : Tidy s) (hi : s'.vol.inode = s.vol.inode)
    (hd : s'.vol.data = s.vol.data) : SameTree s s' := by
  refine .of_congr h (fun i => by rw [Vol.Valid, hi]) (fun i => by rw [hi]) fun i c _ _ => ?_
  exact Vol.lookup_congr (fun k _ => by rw [Vol.ptr, hi]) fun k _ _ => by rw [hd]

/-- What one `mkdir` or `create` does, for a result `r`. -/
theorem tidy_make {r : ℤ} {ok : Bool} (h : Tidy s) (hm : mode < 2 ^ 12)
    (hr : if ok = true then r = 0 else r < 0)
    (hout : MakeOutcome maxDnum s.vol kind mode P c ok s'.vol) :
    (r = 0 ∧ ∃ i j, Grown s.vol kind P c i j s'.vol) ∨
      (r < 0 ∧ SameTree s s' ∧ s'.vol.inode = s.vol.inode) := by
  cases ok with
  | true => exact .inl ⟨hr, hout.grown h.good.owned h.good.rooted hm⟩
  | false =>
    obtain ⟨hi, hd⟩ := hout.unchanged
    exact .inr ⟨by simpa using hr, sameTree_of_unchanged h hi hd, hi⟩

/-- **What a call does to the tree**: it adds the path it was given, or changes nothing. -/
theorem tidy_call {call : Call} (h : Tidy s) (hs : treeSystem.step s call s') :
    (∃ kind p, Makes kind p call.op ∧ call.result = .code 0 ∧
      (∃ i j, Grown s.vol kind (tokens (dirname p.toCPath.bytes)) (basename p.toCPath.bytes) i j
        s'.vol)) ∨
    ((∀ kind p, Makes kind p call.op → call.result ≠ .code 0) ∧ SameTree s s' ∧
      ((∃ r < 0, call.result = .code r) → s'.vol.inode = s.vol.inode)) := by
  obtain ⟨hs, hop⟩ := hs
  obtain ⟨op, result, e⟩ := call
  have happ : apply s op = some (result, s', e) := hs
  -- the other operations are no steps here
  cases op with
  | mkdir path mode env =>
    obtain ⟨⟨p, rfl⟩, hmode⟩ := hop
    have had : Admits maxDnum (rufsMkdir s p.toCPath.bytes mode.toNat env).2.2 := .inl rfl
    obtain ⟨r, s₁, e₁, ok, hmk, -, -, hr, hout⟩ := rufsMkdir_spec h.good.mounted h.good.owned
      h.good.rooted h.good.charged (uint32_lt mode) had
    obtain ⟨rfl, heq⟩ : Result.code (rufsMkdir s p.toCPath.bytes mode.toNat env).1 = result ∧
        (rufsMkdir s p.toCPath.bytes mode.toNat env).2 = (s', e) := by simpa [apply] using happ
    rw [hmk] at heq ⊢
    obtain ⟨rfl, rfl⟩ := Prod.mk.inj heq
    rcases tidy_make h hmode hr hout with ⟨rfl, hgrown⟩ | ⟨hneg, hsame, hinode⟩
    · exact .inl ⟨.dir, p, ⟨rfl, rfl⟩, rfl, hgrown⟩
    · refine .inr ⟨fun _ _ _ h0 => ?_, hsame, fun _ => hinode⟩
      have h0' : r = 0 := by simpa using h0
      omega
  | create path mode env =>
    obtain ⟨⟨p, rfl⟩, hmode⟩ := hop
    have had : Admits maxDnum (rufsCreate s p.toCPath.bytes mode.toNat env).2.2 := .inl rfl
    obtain ⟨r, s₁, e₁, ok, hmk, -, -, hr, hout⟩ := rufsCreate_spec h.good.mounted h.good.owned
      h.good.rooted h.good.charged (uint32_lt mode) had
    obtain ⟨rfl, heq⟩ : Result.code (rufsCreate s p.toCPath.bytes mode.toNat env).1 = result ∧
        (rufsCreate s p.toCPath.bytes mode.toNat env).2 = (s', e) := by simpa [apply] using happ
    rw [hmk] at heq ⊢
    obtain ⟨rfl, rfl⟩ := Prod.mk.inj heq
    rcases tidy_make h hmode hr hout with ⟨rfl, hgrown⟩ | ⟨hneg, hsame, hinode⟩
    · exact .inl ⟨.file, p, ⟨rfl, rfl⟩, rfl, hgrown⟩
    · refine .inr ⟨fun _ _ _ h0 => ?_, hsame, fun _ => hinode⟩
      have h0' : r = 0 := by simpa using h0
      omega
  -- a write changes no directory
  | write path buffer size offset env =>
    refine .inr ⟨fun _ _ hmk => absurd hmk id, ?_⟩
    obtain ⟨⟨r, s₁, e₁⟩, hw, heq⟩ := Option.map_eq_some_iff.mp happ
    obtain ⟨rfl, rfl, rfl⟩ : Result.code r = result ∧ s₁ = s' ∧ e₁ = e := by simpa using heq
    obtain ⟨-, -, ⟨rfl, -, -⟩ | ⟨f, len, -, hreg, rfl, -, hwr⟩⟩ := rufsWrite_spec h.good.mounted
      h.good.owned h.good.rooted h.good.charged hw (.inl rfl)
    · exact ⟨⟨fun _ => rfl, fun _ => rfl, h.named⟩, fun _ => rfl⟩
    · refine ⟨.of_congr h hwr.valid_iff hwr.isDir fun i c hi hd => hwr.lookup hreg hi hd c, ?_⟩
      rintro ⟨r, hneg, hcode⟩
      have hr : (len : ℤ) = r := by simpa using hcode
      omega
  | getattr _ => exact absurd hop id
  | opendir _ => exact absurd hop id
  | readdir _ => exact absurd hop id
  | «open» _ => exact absurd hop id
  | read _ _ _ _ => exact absurd hop id

/-- **The step lemma.** -/
theorem tidy_step {call : Call} (h : Tidy s) (hs : treeSystem.step s call s') : Tidy s' := by
  refine ⟨(apply_good_max h.good hs.1).1, ?_⟩
  rcases tidy_call h hs with ⟨kind, p, -, -, i, j, hgrown⟩ | ⟨-, hsame, -⟩
  · exact hgrown.named h.named
  · exact hsame.named

end Step

/-- A new file system has a root and nothing else. -/
theorem rufsMkfs_tidy (env : Env) :
    Tidy (rufsMkfs env).1 ∧ ∀ p, (rufsMkfs env).1.vol.resolve p = if p = [] then some 0 else none := by
  have hgood : Good maxDnum (rufsMkfs env).1 := rufsMkfs_good (by decide) env
  obtain ⟨-, hvol⟩ := rufsMkfs_spec env
  have hroot := isNew_rootInode env
  have hself : (rufsMkfs env).1.vol.inode 0 = (rootInode env).norm := by
    rw [hvol]
    exact Vol.setInode_self _ _ _
  -- only the root is valid, and its block is zeroed
  have honly : ∀ i, (rufsMkfs env).1.vol.Valid i → i = 0 := by
    intro i hi
    by_contra h0
    rw [hvol, Vol.Valid, Vol.setInode_of_ne _ h0] at hi
    exact blank_invalid i hi
  have hempty : ∀ d, (rufsMkfs env).1.vol.lookup 0 d = none := by
    refine Vol.lookup_of_zero fun k hk hp => ?_
    rw [hvol]
    rfl
  refine ⟨⟨hgood, ?_, ?_⟩, fun p => ?_⟩
  · intro i d k hi _ hl
    rw [honly i hi, hempty d] at hl
    exact absurd hl (by simp)
  · intro i i' d d' k hi _ _ _ hl _
    rw [honly i hi, hempty d] at hl
    exact absurd hl (by simp)
  · induction p using List.reverseRecOn with
    | nil => rfl
    | append_singleton q d ih =>
      rw [if_neg (by simp), Vol.resolve_concat, ih]
      split
      · rw [Option.bind_some, hempty d]
        split <;> rfl
      · rfl

theorem treeSystem_tidy {s : Fs} (h : Reachable treeSystem s) : Tidy s := by
  refine h.invariant ?_ fun s c s' => tidy_step
  rintro s ⟨env, rfl⟩
  exact (rufsMkfs_tidy env).1

/-! ### Whole runs -/

section Runs

variable {cs : List Call} {s : Fs}

theorem madeBy_concat {c : Call} {kind : Kind} {p : TreePath} : MadeBy (cs ++ [c]) kind p ↔
    MadeBy cs kind p ∨ (Makes kind p c.op ∧ c.result = .code 0) := by
  unfold MadeBy
  simp [or_and_right, exists_or]

theorem Makes.unique {kind kind' : Kind} {p p' : TreePath} {op : Op} (h : Makes kind p op)
    (h' : Makes kind' p' op) : kind' = kind ∧ p' = p := by
  cases op with
  | mkdir path mode env =>
    exact ⟨h'.1.trans h.1.symm, toCPath_inj (h'.2.symm.trans h.2)⟩
  | create path mode env =>
    exact ⟨h'.1.trans h.1.symm, toCPath_inj (h'.2.symm.trans h.2)⟩
  | _ => exact absurd h id

/-- **What a path is follows from the calls that returned `0`.** -/
theorem run_kindAt (h : Run treeSystem cs s) (p : TreePath) (kind : Kind) :
    s.vol.kindAt p.comps = some kind ↔
      (p.comps = [] ∧ kind = .dir) ∨ (p.comps ≠ [] ∧ MadeBy cs kind p) := by
  revert p kind
  refine h.history (I := fun cs s => ∀ (p : TreePath) (kind : Kind), s.vol.kindAt p.comps = some kind ↔
    (p.comps = [] ∧ kind = .dir) ∨ (p.comps ≠ [] ∧ MadeBy cs kind p)) ?_ ?_
  · rintro s ⟨env, rfl⟩ p kind
    obtain ⟨htidy, hres⟩ := rufsMkfs_tidy env
    have hkind : (rufsMkfs env).1.vol.kind 0 = .dir := Vol.kind_eq_dir.mpr htidy.good.rooted.isDir
    have hnone : ¬ MadeBy [] kind p := by
      rintro ⟨c, hc, -⟩
      exact absurd hc List.not_mem_nil
    rw [Vol.kindAt, hres]
    by_cases hp : p.comps = []
    · rw [if_pos hp, Option.map_some, hkind]
      simp [hp, eq_comm]
    · rw [if_neg hp]
      simp [hp, hnone]
  · intro cs s c s' hr ih hs p kind
    have htidy := treeSystem_tidy ⟨cs, hr⟩
    have hrooted' := (tidy_step htidy hs).good.rooted
    rcases tidy_call htidy hs with ⟨kind₀, p₀, hmk, hcode, i, j, hgrown⟩ | ⟨hno, hsame, -⟩
    · obtain ⟨hp, hnew, htree⟩ := hgrown.tree htidy.good.rooted hrooted' htidy.named
      have hat := congrArg (fun t => t.at_ p.comps) htree
      rw [NameTree.at_insert] at hat
      change s'.vol.kindAt p.comps = if _ then _ else s.vol.kindAt p.comps at hat
      have hmade : MadeBy (cs ++ [c]) kind p ↔ MadeBy cs kind p ∨ (kind = kind₀ ∧ p = p₀) := by
        rw [madeBy_concat]
        refine or_congr_right ⟨fun h => hmk.unique h.1, ?_⟩
        rintro ⟨rfl, rfl⟩
        exact ⟨hmk, hcode⟩
      rw [hat, hmade]
      split
      · next hpp =>
        -- the path was not there before
        obtain ⟨rfl, hne⟩ := (eq_target_iff p₀ p).mp hpp
        have hbefore : ¬ MadeBy cs kind p := by
          intro hmade
          have hkind := (ih p kind).mpr (.inr ⟨hne, hmade⟩)
          rw [hpp, show s.vol.kindAt _ = none from hnew] at hkind
          exact absurd hkind (by simp)
        simp [hne, hbefore, eq_comm]
      · next hpp =>
        rw [ih]
        refine or_congr_right (and_congr_right fun hne => ⟨.inl, fun h => h.resolve_right ?_⟩)
        rintro ⟨-, rfl⟩
        exact hpp ((eq_target_iff p p).mpr ⟨rfl, hne⟩)
    · rw [hsame.kindAt, ih, madeBy_concat]
      refine or_congr_right (and_congr_right fun _ => ⟨.inl, fun h => h.resolve_right ?_⟩)
      exact fun h => hno kind p h.1 h.2

/-- A free inode number, by its bit. -/
theorem Good.exists_ibit (h : Good maxDnum s) :
    (∃ i < maxInum, getBitmap (s.disk s.sb.iBitmapBlk) i = 0) ↔
      ∃ j < maxInum, s.vol.ibit j = false := by
  rw [h.mounted.sb]
  simp only [getBitmap_eq, ite_eq_right_iff, one_ne_zero, imp_false, Bool.not_eq_true]
  rfl

/-- The condition under which `mkdir` and `create` succeed, as a caller sees it. -/
theorem Good.entryFits_iff (h : Good maxDnum s) (parent : TreePath) (c : Name) :
    EntryFits s parent c ↔ ∃ i, s.vol.resolve parent.comps = some i ∧
      (s.vol.inode i).isDir = true ∧ c.length ≤ nameMax ∧ s.vol.lookup i c = none ∧
      ((∃ k < numEnts, s.vol.slot (s.vol.inode i) entFree k = true) ∨
        ∃ m < numPtrs, s.vol.ptr i m = 0) ∧ ∃ j < maxInum, s.vol.ibit j = false := by
  unfold EntryFits
  rw [h.node, h.exists_ibit]
  constructor
  · rintro ⟨dir, hdir, hd, hl, hmem, hlen, hfree⟩
    obtain ⟨i, hi, rfl⟩ := Option.map_eq_some_iff.mp hdir
    have hv := Vol.resolve_valid h.rooted hi
    exact ⟨i, hi, hd, hl, (not_mem_entries h.owned hv hl).mp hmem,
      (length_entries_lt h.owned hv).mp hlen, hfree⟩
  · rintro ⟨i, hi, hd, hl, hnew, hroom, hfree⟩
    have hv := Vol.resolve_valid h.rooted hi
    exact ⟨s.vol.inode i, Option.map_eq_some_iff.mpr ⟨i, hi, rfl⟩, hd, hl,
      (not_mem_entries h.owned hv hl).mpr hnew, (length_entries_lt h.owned hv).mpr hroom, hfree⟩

theorem Good.makeCode_eq_zero (h : Good maxDnum s) (kind : Kind) {p : TreePath} {P : List Name}
    {c : Name} (hp : p.comps = P ++ [c]) {mode : ℕ} (hm : mode < 2 ^ 12) (env : Env) :
    makeCode s kind p mode env = 0 ↔ EntryFits s (p.parent hp) c := by
  obtain ⟨hP, hc, -⟩ := TreePath.split hp
  have hmode : mode < 2 ^ 32 := hm.trans (by decide)
  -- the return value says whether the entry was made
  have hok : ∀ {r : ℤ} {ok : Bool}, (if ok = true then r = 0 else r < 0) → (r = 0 ↔ ok = true) := by
    intro r ok hr
    cases ok with
    | true => exact iff_of_true hr rfl
    | false =>
      have hr' : r < 0 := by simpa using hr
      exact iff_of_false (by omega) (by decide)
  rw [h.entryFits_iff]
  cases kind with
  | dir =>
    have had : Admits maxDnum (rufsMkdir s p.toCPath.bytes mode env).2.2 := .inl rfl
    obtain ⟨r, s₁, e₁, ok, hmk, -, -, hr, hout⟩ := rufsMkdir_spec h.mounted h.owned h.rooted
      h.charged hmode had
    rw [hP, hc] at hout
    rw [makeCode, hmk, hok hr]
    exact hout.ok_iff
  | file =>
    have had : Admits maxDnum (rufsCreate s p.toCPath.bytes mode env).2.2 := .inl rfl
    obtain ⟨r, s₁, e₁, ok, hmk, -, -, hr, hout⟩ := rufsCreate_spec h.mounted h.owned h.rooted
      h.charged hmode had
    rw [hP, hc] at hout
    rw [makeCode, hmk, hok hr]
    exact hout.ok_iff

end Runs

/-! ### What a caller sees -/

/-- The namespace after the calls `cs`. -/
structure NamespaceOk (cs : List Call) (s : Fs) : Prop where
  /-- A path resolves if it is the root or was made. -/
  resolves : ∀ p, (∃ n, node s p = some n) ↔ p.comps = [] ∨ ∃ kind, MadeBy cs kind p
  /-- It is a directory if it is the root or was made by `mkdir`. -/
  directory : ∀ p n, node s p = some n → (n.isDir = true ↔ p.comps = [] ∨ MadeBy cs .dir p)
  /-- Different paths have different inodes. -/
  distinct : ∀ p q n m, node s p = some n → node s q = some m → p.comps ≠ q.comps → n.ino ≠ m.ino
  /-- Every inode knows its own slot. -/
  slot : ∀ ino n, (readi s ino).1 = some n → n.ino = ino
  /-- When `mkdir` and `create` succeed. -/
  succeeds : ∀ kind (p : TreePath) P c (hp : p.comps = P ++ [c]) mode env, mode < 2 ^ 12 →
    (makeCode s kind p mode env = 0 ↔ EntryFits s (p.parent hp) c)
  /-- A call that fails changes nothing a path sees. -/
  failing : ∀ c s', treeSystem.step s c s' → (∃ r < 0, c.result = .code r) →
    ∀ p, node s' p = node s p

/-- **The RUFS namespace is a tree that grows by one path with each call that succeeds.** -/
theorem namespace_refines {cs : List Call} {s : Fs} (h : Run treeSystem cs s) :
    NamespaceOk cs s := by
  have htidy := treeSystem_tidy ⟨cs, h⟩
  have hgood := htidy.good
  have hnode : ∀ {p : TreePath} {n : Inode}, node s p = some n →
      ∃ i, s.vol.resolve p.comps = some i ∧ s.vol.inode i = n ∧ s.vol.Valid i := fun hn => by
    rw [hgood.node] at hn
    obtain ⟨i, hi, rfl⟩ := Option.map_eq_some_iff.mp hn
    exact ⟨i, hi, rfl, Vol.resolve_valid hgood.rooted hi⟩
  have hkind : ∀ (p : TreePath) (i : ℕ), s.vol.resolve p.comps = some i →
      s.vol.kindAt p.comps = some (s.vol.kind i) := fun p i hi => by rw [Vol.kindAt, hi]; rfl
  refine ⟨fun p => ?_, fun p n hn => ?_, fun p q n m hn hm hpq => ?_, fun ino n hn => ?_,
    fun kind p P c hp mode env hm => hgood.makeCode_eq_zero kind hp hm env, ?_⟩
  -- (a) which paths resolve
  · constructor
    · rintro ⟨n, hn⟩
      obtain ⟨i, hi, -⟩ := hnode hn
      rcases (run_kindAt h p _).mp (hkind p i hi) with ⟨hp, -⟩ | ⟨-, hmade⟩
      · exact .inl hp
      · exact .inr ⟨_, hmade⟩
    · intro hp
      have hsome : ∃ kind, s.vol.kindAt p.comps = some kind := by
        by_cases hroot : p.comps = []
        · exact ⟨.dir, (run_kindAt h p .dir).mpr (.inl ⟨hroot, rfl⟩)⟩
        · obtain ⟨kind, hmade⟩ := hp.resolve_left hroot
          exact ⟨kind, (run_kindAt h p kind).mpr (.inr ⟨hroot, hmade⟩)⟩
      obtain ⟨kind, hk⟩ := hsome
      obtain ⟨i, hi, -⟩ := Option.map_eq_some_iff.mp hk
      exact ⟨s.vol.inode i, by rw [hgood.node, hi]; rfl⟩
  -- (a) which of them are directories
  · obtain ⟨i, hi, rfl, -⟩ := hnode hn
    have hk := run_kindAt h p .dir
    rw [hkind p i hi, Option.some_inj, Vol.kind_eq_dir] at hk
    rw [hk]
    constructor
    · rintro (⟨hp, -⟩ | ⟨-, hmade⟩)
      · exact .inl hp
      · exact .inr hmade
    · intro hp
      by_cases hroot : p.comps = []
      · exact .inl ⟨hroot, rfl⟩
      · exact .inr ⟨hroot, hp.resolve_left hroot⟩
  -- (a) different paths have different inodes
  · obtain ⟨i, hi, rfl, hvi⟩ := hnode hn
    obtain ⟨j, hj, rfl, hvj⟩ := hnode hm
    rw [hgood.owned.ino_self i hvi, hgood.owned.ino_self j hvj]
    rintro rfl
    exact hpq (htidy.named.resolve_inj hgood.rooted hi hj)
  -- (a) an inode knows its own number
  · rw [readi_eq hgood.mounted] at hn
    split at hn
    · exact absurd hn (by simp)
    · next hv =>
      obtain rfl := Option.some.inj hn
      exact hgood.owned.ino_self ino hv
  -- (c) a call that fails changes no path
  · intro c s' hs hfail p
    have hgood' := (tidy_step htidy hs).good
    rcases tidy_call htidy hs with ⟨kind, p₀, -, hcode, -⟩ | ⟨-, hsame, hinode⟩
    · obtain ⟨r, hneg, hr⟩ := hfail
      rw [hcode] at hr
      have h0 : (0 : ℤ) = r := by simpa using hr
      omega
    · rw [hgood'.node, hgood.node, hsame.resolve, hinode hfail]

/-- `firstMkdir` is a call of `treeSystem`. -/
theorem firstMkdir_treeRun :
    Run treeSystem [firstMkdir] (rufsMkdir freshFs pathA.bytes 0o755 ⟨0, 0, 0, 0⟩).2.1 := by
  have hstart : Run treeSystem [] freshFs := .start freshFs_init
  have hname : ∀ c ∈ [([97] : Name)], IsName c := by
    intro c hc
    rw [List.mem_singleton.mp hc]
    constructor <;> decide
  refine hstart.step ⟨rfl, ⟨⟨[[97]], hname, by decide⟩, rfl⟩, by decide⟩

theorem namespace_refines_first :
    NamespaceOk [firstMkdir] (rufsMkdir freshFs pathA.bytes 0o755 ⟨0, 0, 0, 0⟩).2.1 :=
  namespace_refines firstMkdir_treeRun

end Rufs
