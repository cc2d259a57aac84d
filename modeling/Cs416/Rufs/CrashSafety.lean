import Cs416.Rufs.CrashStages
import Cs416.Rufs.NamespaceRuns
import Cs416.Rufs.Remount
import Cs416.Rufs.WriteBack

/-!
# Killing the file system

Nothing in RUFS repairs a volume: `rufs_init` reads the superblock and no more. `crashSystem` are
the runs in which the process may be killed in front of any block write of any call, and is
mounted again. After the format, where nothing is lost, each step keeps `Intact`.

A call that is killed, or fails, is not seen: paths lead where they did, files keep their inodes,
and only an interrupted `write` leaves bytes, in its own range (`unfinished_unseen`). So the
namespace is that of the calls that returned (`crash_namespace`). What a kill may cost is a name:
an entry whose inode was never written stays for good (`dead_name`).
-/

open ByteMem Scan Lts WriteLog

namespace Rufs

/-! ### Runs with kills -/

/-- What happens to a mounted file system. -/
inductive Act
  /-- A call that returns. -/
  | call (c : Call)
  /-- The process is killed in the call, after `k` block writes, and mounts again. -/
  | kill (op : Op) (k : ℕ)
  | remount

/-- The file system mounted again on what `k` writes of the call have left. -/
def killed (s : Fs) (op : Op) (k : ℕ) : Fs :=
  (rufsInit (s.replay ((opLog s op).take k)).disk).1

/-- A kill is in front of a write of the call. After the last one there is nothing to lose: the
call is as good as returned. -/
def crashSystem : System Fs Act where
  init := system.init
  step s
    | .call c, s' => system.step s c s'
    | .kill op k, s' => (apply s op).isSome = true ∧ k < (opLog s op).length ∧ s' = killed s op k
    | .remount, s' => s' = remount s

/-- The operation that makes a node of the kind. -/
def Kind.op : Kind → CPath → UInt32 → Env → Op
  | .dir => .mkdir
  | .file => .create

/-- The operation is `mkdir` or `create`. -/
def Op.MakesNode (op : Op) : Prop :=
  ∃ (kind : Kind) (path : CPath) (mode : UInt32) (env : Env), op = kind.op path mode env

/-- The bytes that a call may leave in a file before it is complete. -/
def NewByte (s : Fs) : Op → ℕ → ℕ → UInt8 → Prop
  | .write path buffer size offset _, i, p, b => ∃ f, s.vol.resolve (tokens path.bytes) = some f ∧
      WrittenByte f (writePos offset.toNat) size.toNat buffer i p b
  | _, _, _, _ => False

/-- **The invariant.** -/
structure Intact (s : Fs) : Prop where
  mounted : s.Mounted
  sound : Sound s.vol

section Step

variable {s s' : Fs} {op : Op} {r : Result} {e : List Event} {k : ℕ}

/-- What is left of a call that is not complete. -/
def Left (s : Fs) (op : Op) (s' : Fs) : Prop :=
  Intact s' ∧ Survives (NewByte s op) s.vol s'.vol

theorem Intact.left (h : Intact s) (op : Op) : Left s op s := ⟨h, .refl _ _⟩

theorem MakeCut.left {path : CPath} (h : Intact s) (hc : MakeCut s path s') : Left s op s' := by
  obtain ⟨hs, hv⟩ := h.sound.makeStage (NewByte s op) hc.2
  exact ⟨⟨hc.1, hs⟩, hv⟩

theorem WriteCut.left {path : CPath} {buffer : Bytes} {size offset : UInt64} {env : Env} {f : ℕ}
    (hres : s.vol.resolve (tokens path.bytes) = some f)
    (hc : WriteCut f (writePos offset.toNat) size.toNat buffer s.vol s') :
    Left s (.write path buffer size offset env) s' := by
  obtain ⟨hm, n, hn⟩ := hc
  exact ⟨⟨hm, hn.sound⟩, hn.seen.mono fun i p b hb => ⟨f, hres, hb⟩⟩

/-- How a call ends: it made a node, or what it made is no new name, and nothing is seen of it if
it failed. -/
inductive Ended (s : Fs) (op : Op) : Result → Fs → Prop
  | made (kind : Kind) (path : CPath) (mode : UInt32) (env : Env) (j : ℕ) (s' : Fs) :
      op = kind.op path mode env → Intact s' →
      Born s.vol kind mode.toNat (tokens (dirname path.bytes)) (basename path.bytes) j s'.vol →
      Ended s op (.code 0) s'
  | same (r : Result) (s' : Fs) : Intact s' → SameNames s.vol s'.vol →
      (op.MakesNode → r ≠ .code 0) → ((∃ code < 0, r = .code code) → Left s op s') → Ended s op r s'

/-- A call that changes nothing, and makes no name. -/
theorem Intact.idle (h : Intact s) (hop : ¬ op.MakesNode) : Ended s op r s :=
  .same r s h (Survives.refl (NewByte s op) s.vol).toSameNames (fun hmk => absurd hmk hop)
    fun _ => h.left op

/-- The operations that are not `mkdir` and not `create`. -/
theorem not_makesNode (hop : ∀ path mode env, op ≠ .mkdir path mode env ∧ op ≠ .create path mode env) :
    ¬ op.MakesNode := by
  rintro ⟨kind, path, mode, env, rfl⟩
  cases kind with
  | dir => exact (hop path mode env).1 rfl
  | file => exact (hop path mode env).2 rfl

/-- `mkdir` and `create`, by their cuts. -/
theorem MakeCuts.ended {kind : Kind} {path : CPath} {mode : UInt32} {env : Env} {ws : Log} {z : ℤ}
    (h : Intact s) (hcuts : MakeCuts s kind path mode.toNat ws z s') (hlog : s.replay ws = s') :
    Ended s (kind.op path mode env) (.code z) s' ∧
      ∀ k < ws.length, Left s (kind.op path mode env) (s.replay (ws.take k)) := by
  obtain ⟨hneg, hcut⟩ | ⟨rfl, ⟨ws', w, rfl, hcut⟩, hm, hout⟩ := hcuts
  · have hleft : Left s (kind.op path mode env) s' := by
      rw [← hlog]
      exact hcut.finish.left h
    refine ⟨.same _ _ hleft.1 hleft.2.toSameNames (fun _ h0 => ?_) fun _ => hleft,
      fun k hk => (hcut.before k hk).left h⟩
    have hz : z = 0 := by simpa using h0
    omega
  · obtain ⟨j, hborn⟩ := hout.born h.sound
    exact ⟨.made kind path mode env j _ rfl ⟨hm, hborn.sound⟩ hborn,
      fun k hk => (before_concat.mpr hcut k hk).left h⟩

/-- **The step lemma.** A call that returns has ended, and in front of each of its writes nothing
is seen of it. -/
theorem Intact.call (h : Intact s) (happ : apply s op = some (r, s', e)) :
    Ended s op r s' ∧ ∀ k < (opLog s op).length, Left s op (s.replay ((opLog s op).take k)) := by
  have hlog := (logs_apply happ).state
  have hnone : ∀ k < ([] : Log).length, Left s op (s.replay (([] : Log).take k)) := fun k hk =>
    absurd hk (Nat.not_lt_zero k)
  cases op with
  | mkdir path mode env =>
    obtain ⟨rfl, heq⟩ : Result.code (rufsMkdir s path.bytes mode.toNat env).1 = r ∧
        (rufsMkdir s path.bytes mode.toNat env).2 = (s', e) := by simpa [apply] using happ
    have hcuts : MakeCuts s .dir path mode.toNat (rufsMkdirLog s path.bytes mode.toNat env) _ _ :=
      rufsMkdir_cut h.mounted h.sound (uint32_lt mode)
    rw [heq] at hcuts
    exact hcuts.ended h hlog
  | create path mode env =>
    obtain ⟨rfl, heq⟩ : Result.code (rufsCreate s path.bytes mode.toNat env).1 = r ∧
        (rufsCreate s path.bytes mode.toNat env).2 = (s', e) := by simpa [apply] using happ
    have hcuts : MakeCuts s .file path mode.toNat (rufsCreateLog s path.bytes mode.toNat env) _ _ :=
      rufsCreate_cut h.mounted h.sound (uint32_lt mode)
    rw [heq] at hcuts
    exact hcuts.ended h hlog
  | write path buffer size offset env =>
    obtain ⟨⟨z, s₁, e₁⟩, hw, heq⟩ := Option.map_eq_some_iff.mp happ
    obtain ⟨rfl, rfl, rfl⟩ : Result.code z = r ∧ s₁ = s' ∧ e₁ = e := by simpa using heq
    have hop : ¬ (Op.write path buffer size offset env).MakesNode := not_makesNode (by simp)
    obtain ⟨-, rfl, hnil⟩ | ⟨f, hres, hreg, hcuts⟩ := rufsWrite_cut h.mounted h.sound hw
    · have hnil' : opLog s₁ (.write path buffer size offset env) = [] := hnil
      rw [hnil']
      exact ⟨h.idle hop, hnone⟩
    obtain ⟨-, hcut⟩ | ⟨hpos, ⟨ws', w, hws, hcut⟩, hm, n, n', v', htear, hcore, hvol⟩ := hcuts
    · have hleft : Left s (.write path buffer size offset env) s₁ := by
        rw [← hlog]
        exact hcut.finish.left hres
      exact ⟨.same _ _ hleft.1 hleft.2.toSameNames
        (fun hmk => absurd hmk hop) fun _ => hleft,
        fun k hk => (hcut.before k hk).left hres⟩
    · have hws' : opLog s (.write path buffer size offset env) = ws' ++ [w] := hws
      obtain ⟨hsound, hnames⟩ := htear.finish hcore
      rw [← hvol] at hsound hnames
      rw [hws']
      refine ⟨.same _ _ ⟨hm, hsound⟩ hnames (fun hmk => absurd hmk hop) ?_,
        fun k hk => (before_concat.mpr hcut k hk).left hres⟩
      rintro ⟨code, hneg, hcode⟩
      have hz : z = code := by simpa using hcode
      omega
  -- the others only read
  | getattr path =>
    obtain rfl : s = s' := congrArg (fun x => x.2.1) (Option.some.inj happ)
    exact ⟨h.idle (not_makesNode (by simp)), hnone⟩
  | opendir path =>
    obtain rfl : s = s' := congrArg (fun x => x.2.1) (Option.some.inj happ)
    exact ⟨h.idle (not_makesNode (by simp)), hnone⟩
  | readdir path =>
    obtain rfl : s = s' := congrArg (fun x => x.2.1) (Option.some.inj happ)
    exact ⟨h.idle (not_makesNode (by simp)), hnone⟩
  | «open» path =>
    obtain rfl : s = s' := congrArg (fun x => x.2.1) (Option.some.inj happ)
    exact ⟨h.idle (not_makesNode (by simp)), hnone⟩
  | read path buffer size offset =>
    obtain rfl : s = s' := congrArg (fun x => x.2.1) (Option.some.inj happ)
    exact ⟨h.idle (not_makesNode (by simp)), hnone⟩

/-- Mounting reads the superblock that is in memory already. -/
theorem Fs.Mounted.init (h : s.Mounted) : (rufsInit s.disk).1 = s := by
  have hsb : Superblock.decode (s.disk 0) = s.sb := h.disk.trans h.sb.symm
  unfold rufsInit
  rw [hsb]

theorem Intact.kill (h : Intact s) (happ : (apply s op).isSome = true)
    (hk : k < (opLog s op).length) : Left s op (killed s op k) := by
  obtain ⟨⟨r, s₁, e⟩, happ⟩ := Option.isSome_iff_exists.mp happ
  have hleft := (h.call happ).2 k hk
  unfold killed
  rw [hleft.1.mounted.init]
  exact hleft

end Step

/-- The call is not complete: the process was killed in it, or it failed. -/
def Unfinished : Act → Op → Prop
  | .call c, op => c.op = op ∧ ∃ code < 0, c.result = .code code
  | .kill op' _, op => op' = op
  | .remount, _ => False

/-- What happens in one step, with or without a kill. -/
theorem Intact.step {s s' : Fs} {a : Act} (h : Intact s) (hs : crashSystem.step s a s') :
    ((∃ c, a = .call c ∧ Ended s c.op c.result s') ∨
      ((∀ c, a ≠ .call c) ∧ Intact s' ∧ SameNames s.vol s'.vol)) ∧
    ∀ op, Unfinished a op → Left s op s' := by
  cases a with
  | call c =>
    have hend := (h.call hs).1
    refine ⟨.inl ⟨c, rfl, hend⟩, ?_⟩
    rintro op ⟨rfl, code, hneg, hcode⟩
    rw [hcode] at hend
    generalize hr : Result.code code = r at hend
    cases hend with
    | made _ _ _ _ _ _ _ _ _ =>
      have h0 : code = 0 := by simpa using hr
      omega
    | same _ _ _ _ _ hleft => exact hleft ⟨code, hneg, hr.symm⟩
  | kill op k =>
    obtain ⟨happ, hk, rfl⟩ := hs
    have hleft := h.kill happ hk
    refine ⟨.inr ⟨fun c hc => ?_, hleft.1, hleft.2.toSameNames⟩, ?_⟩
    · exact absurd hc (by simp)
    · rintro op' rfl
      exact hleft
  | remount =>
    obtain rfl : s' = s := Eq.trans hs h.mounted.remount
    exact ⟨.inr ⟨fun c hc => absurd hc (by simp), h,
      (Survives.refl (fun _ _ _ => False) s'.vol).toSameNames⟩, fun op hop => absurd hop id⟩

/-! ### Whole runs -/

section Runs

variable {as : List Act} {s s' : Fs} {a : Act} {op : Op}

theorem Ended.intact {r : Result} (h : Ended s op r s') : Intact s' := by
  cases h with
  | made _ _ _ _ _ _ _ h _ => exact h
  | same _ _ h _ _ _ => exact h

theorem crash_intact (h : Reachable crashSystem s) : Intact s := by
  refine h.invariant ?_ fun s a s' hI hs => ?_
  · rintro s ⟨env, rfl⟩
    obtain ⟨htidy, -⟩ := rufsMkfs_tidy env
    have hnamed := htidy.named
    refine ⟨htidy.good.mounted, htidy.good.owned, htidy.good.rooted, ⟨?_, hnamed.once, ?_⟩⟩
    · intro i c k hi hd hl
      exact (htidy.good.owned.ibit_of_valid k (hnamed.valid i c k hi hd hl).1).2
    · intro i c hi hd hl
      exact (hnamed.valid i c 0 hi hd hl).2 rfl
  · obtain ⟨⟨c, -, hend⟩ | ⟨-, h', -⟩, -⟩ := hI.step hs
    · exact hend.intact
    · exact h'

/-- The node that `get_node_by_path` finds. -/
def nodeAt (s : Fs) (path : CPath) : Option Inode := (getNodeByPath s path.bytes 0).1

theorem Intact.nodeAt (h : Intact s) (path : CPath) :
    nodeAt s path = (s.vol.resolve (tokens path.bytes)).map s.vol.inode :=
  (getNodeByPath_spec (N := maxDnum) h.mounted h.sound.owned h.sound.rooted path.short).1

theorem Intact.nodeAt_eq_some (h : Intact s) {path : CPath} {n : Inode}
    (hn : Rufs.nodeAt s path = some n) :
    ∃ i, s.vol.resolve (tokens path.bytes) = some i ∧ s.vol.inode i = n ∧ s.vol.Valid i := by
  rw [h.nodeAt] at hn
  obtain ⟨i, hi, rfl⟩ := Option.map_eq_some_iff.mp hn
  exact ⟨i, hi, rfl, Vol.resolve_valid h.sound.rooted hi⟩

/-- What holds of every file system that was mounted again after kills. -/
structure CrashConsistent (s : Fs) : Prop where
  superblock : s.sb = Superblock.decode (s.disk 0)
  ownership : BlockOwnership s
  /-- The root is a directory. -/
  root : ∃ root, (readi s 0).1 = some root ∧ root.isDir = true
  /-- Every inode knows its own slot. -/
  slot : ∀ ino n, (readi s ino).1 = some n → n.ino = ino
  /-- Different paths have different inodes. -/
  distinct : ∀ (p q : CPath) n m, nodeAt s p = some n → nodeAt s q = some m →
    tokens p.bytes ≠ tokens q.bytes → n.ino ≠ m.ino

/-- **Kills do not break the volume.** Whatever calls were cut short, and wherever, no block has
two owners, no two paths share an inode, and what is free is zeroed. -/
theorem crash_consistent (h : Reachable crashSystem s) : CrashConsistent s := by
  have hI := crash_intact h
  have ho := hI.sound.owned
  refine ⟨hI.mounted.sb.trans hI.mounted.disk.symm, blockOwnership_of_owned hI.mounted ho,
    ⟨s.vol.inode 0, (readi_eq_some hI.mounted).mpr ⟨hI.sound.rooted.valid, rfl⟩,
      hI.sound.rooted.isDir⟩, ?_, ?_⟩
  · intro ino n hn
    obtain ⟨hv, rfl⟩ := (readi_eq_some hI.mounted).mp hn
    exact ho.ino_self ino hv
  · intro p q n m hn hm hpq
    obtain ⟨i, hi, rfl, hvi⟩ := hI.nodeAt_eq_some hn
    obtain ⟨j, hj, rfl, hvj⟩ := hI.nodeAt_eq_some hm
    rw [ho.ino_self i hvi, ho.ino_self j hvj]
    rintro rfl
    exact hpq (hI.sound.resolve_inj hi hj)

/-- `mkdir("/a")` on a new file system. -/
def firstOp : Op := .mkdir pathA 0o755 ⟨0, 0, 0, 0⟩

/-- The kill after its third write: the entry is there, and the inode is not. -/
theorem firstKill_step : crashSystem.step freshFs (.kill firstOp 3) (killed freshFs firstOp 3) := by
  refine ⟨rfl, ?_, rfl⟩
  decide +kernel

theorem firstKill_reachable : Reachable crashSystem (killed freshFs firstOp 3) := by
  have hstart : Reachable crashSystem freshFs := .start freshFs_init
  exact hstart.step firstKill_step

theorem crash_consistent_first : CrashConsistent (killed freshFs firstOp 3) :=
  crash_consistent firstKill_reachable

/-- What is seen of a call that is not complete: nothing but bytes of an interrupted `write`. -/
structure Unseen (s : Fs) (op : Op) (s' : Fs) : Prop where
  /-- The same paths lead to the same inodes. -/
  nodes : ∀ path, (nodeAt s' path).map (fun n => (n.ino, n.stMode))
    = (nodeAt s path).map fun n => (n.ino, n.stMode)
  /-- The inode of a file is the same, its size and its blocks too. -/
  files : ∀ path n, nodeAt s path = some n → n.isReg = true → nodeAt s' path = some n
  /-- A byte of a file is the old one, or the one that the `write` was to put there. -/
  bytes : ∀ path n p, nodeAt s path = some n → n.isReg = true → p < maxFile →
    fileByte s' n p = fileByte s n p ∨
      ∃ path' buffer size offset env, op = .write path' buffer size offset env ∧
        tokens path'.bytes = tokens path.bytes ∧ writePos offset.toNat ≤ p ∧
        p < writePos offset.toNat + size.toNat ∧
        fileByte s' n p = buffer (p - writePos offset.toNat)

theorem Left.unseen (h : Intact s) (hl : Left s op s') : Unseen s op s' := by
  obtain ⟨h', hv⟩ := hl
  have hres := hv.resolve h.sound.rooted
  refine ⟨fun path => ?_, fun path n hn hreg => ?_, fun path n p hn hreg hp => ?_⟩
  · rw [h.nodeAt, h'.nodeAt, hres]
    cases hi : s.vol.resolve (tokens path.bytes) with
    | none => rfl
    | some i =>
      have hvi := Vol.resolve_valid h.sound.rooted hi
      simp only [Option.map_some, hv.stMode i hvi, h.sound.owned.ino_self i hvi,
        h'.sound.owned.ino_self i ((hv.valid_iff i).mpr hvi)]
  · obtain ⟨i, hi, rfl, hvi⟩ := h.nodeAt_eq_some hn
    rw [h'.nodeAt, hres, hi, Option.map_some, hv.file i hvi hreg]
  · obtain ⟨i, hi, rfl, hvi⟩ := h.nodeAt_eq_some hn
    have hvi' := (hv.valid_iff i).mpr hvi
    have hfile := hv.file i hvi hreg
    have hbyte' : fileByte s' (s.vol.inode i) p = content s'.vol (s.vol.inode i) p := by
      rw [← hfile]
      exact fileByte_eq (fun k hk hk0 => h'.sound.owned.ptr_ge hvi' hk hk0) hp
    rw [hbyte', fileByte_eq (fun k hk hk0 => h.sound.owned.ptr_ge hvi hk hk0) hp]
    refine (hv.content i p hvi hreg hp).imp_right fun hnew => ?_
    cases op with
    | write path' buffer size offset env =>
      obtain ⟨f, hf, rfl, hlo, hhi, hb⟩ := hnew
      exact ⟨path', buffer, size, offset, env, rfl, h.sound.resolve_inj hf hi, hlo, hhi, hb⟩
    | _ => exact absurd hnew id

/-- **A call that was killed, or that failed, is not seen**, in whatever state earlier kills have
left the volume. -/
theorem unfinished_unseen (h : Reachable crashSystem s) (hs : crashSystem.step s a s')
    (hop : Unfinished a op) : Unseen s op s' :=
  (((crash_intact h).step hs).2 op hop).unseen (crash_intact h)

theorem unfinished_unseen_first : Unseen freshFs firstOp (killed freshFs firstOp 3) :=
  unfinished_unseen (.start freshFs_init) firstKill_step rfl

end Runs

/-! ### The namespace over runs with kills -/

/-- The calls that returned. -/
def returned (as : List Act) : List Call :=
  as.filterMap fun
    | .call c => some c
    | _ => none

section Namespace

variable {as : List Act} {s s' : Fs} {c : Call} {kind : Kind} {p : TreePath}

/-- What a node is, by its mode. -/
theorem Born.kindAt {v v' : Vol} {mode j : ℕ} {P : List Name} {c : Name}
    (h : Born v kind mode P c j v') (hr : v.Rooted) (hm : mode < 2 ^ 12) (p : List Name) :
    v'.kindAt p = if p = P ++ [c] then some kind else v.kindAt p := by
  rw [Vol.kindAt, h.resolve]
  by_cases hp : p = P ++ [c]
  · have hd := (kind_of_stMode hm kind h.stMode_new).1
    rw [← Vol.kind_eq_dir] at hd
    have hkind : v'.kind j = kind := by
      cases hk : v'.kind j <;> cases kind <;> simp_all
    rw [if_pos hp, if_pos hp, Option.map_some, hkind]
  · rw [if_neg hp, if_neg hp, Vol.kindAt]
    cases hres : v.resolve p with
    | none => rfl
    | some i =>
      have hi := Vol.resolve_valid hr hres
      rw [Option.map_some, Option.map_some, Vol.kind, Vol.kind, Inode.isDir, Inode.isDir,
        h.stMode i hi]

/-- `/a`, by its components. -/
def treeA : TreePath where
  comps := [[97]]
  names c hc := by
    rw [List.mem_singleton.mp hc]
    constructor <;> decide
  short := by decide

end Namespace

/-! ### Names that a kill has cost -/

section Dead

variable {as : List Act} {s s' : Fs} {v v' : Vol} {a : Act} {P : List Name} {c : Name}

/-- The directory `P` has an entry `c` whose inode was never written. -/
def Dead (v : Vol) (P : List Name) (c : Name) : Prop :=
  ∃ i j, v.resolve P = some i ∧ (v.inode i).isDir = true ∧ v.lookup i c = some j ∧ ¬ v.Valid j

theorem Dead.resolve (h : Dead v P c) : v.resolve (P ++ [c]) = none := by
  obtain ⟨i, j, hres, hd, hl, hj⟩ := h
  rw [Vol.resolve_concat, hres, Option.bind_some, hd, hl, Option.bind_some, if_neg hj]
  rfl

theorem Dead.of_sameNames (h : Dead v P c) (hr : v.Rooted) (hn : SameNames v v') :
    Dead v' P c := by
  obtain ⟨i, j, hres, hd, hl, hj⟩ := h
  have hi := Vol.resolve_valid hr hres
  refine ⟨i, j, by rw [hn.resolve hr, hres], (hn.isDir hi).trans hd, ?_,
    fun hv => hj ((hn.valid_iff j).mp hv)⟩
  rcases hn.entry i c hi hd with heq | ⟨hnone, -⟩
  · rw [heq, hl]
  · rw [hnone] at hl
    exact absurd hl (by simp)

/-- Its inode is not given to another call. -/
theorem Dead.of_born {kind : Kind} {mode j₀ : ℕ} {P₀ : List Name} {c₀ : Name} (h : Dead v P c)
    (hs : Sound v) (hb : Born v kind mode P₀ c₀ j₀ v') : Dead v' P c := by
  obtain ⟨i, j, hres, hd, hl, hj⟩ := h
  have hi := Vol.resolve_valid hs.rooted hres
  have hjj : j ≠ j₀ := by
    rintro rfl
    have hfree := hb.free
    rw [hs.linked.taken i c j hi hd hl] at hfree
    exact absurd hfree (by decide)
  have hP : P ≠ P₀ ++ [c₀] := by
    rintro rfl
    obtain ⟨i₀, hi₀, -, hl₀, -⟩ := Vol.resolve_concat_eq_some.mp hres
    rw [hb.fresh i₀ hi₀] at hl₀
    exact absurd hl₀ (by simp)
  refine ⟨i, j, ?_, ?_, hb.entry i c j hi hd hl, fun hv => hj ((hb.valid_iff j hjj).mp hv)⟩
  · rw [hb.resolve, if_neg hP, hres]
  · rw [← hd, Inode.isDir, Inode.isDir, hb.stMode i hi]

theorem Dead.step (h : Dead s.vol P c) (hI : Intact s) (hs : crashSystem.step s a s') :
    Dead s'.vol P c := by
  obtain ⟨⟨call, -, hend⟩ | ⟨-, -, hnames⟩, -⟩ := hI.step hs
  · generalize call.result = r at hend
    cases hend with
    | made kind path mode env j _ _ _ hborn => exact h.of_born hI.sound hborn
    | same _ _ _ hnames _ _ => exact h.of_sameNames hI.sound.rooted hnames
  · exact h.of_sameNames hI.sound.rooted hnames

/-- `mkdir` and `create` find the name taken. -/
theorem Dead.makeCode (hI : Intact s) {p : TreePath} (hp : p.comps = P ++ [c])
    (h : Dead s.vol P c) (kind : Kind) (mode : UInt32) (env : Env) :
    makeCode s kind p mode.toNat env < 0 := by
  obtain ⟨hP, hc, -⟩ := TreePath.split hp
  obtain ⟨i, j, hres, hd, hl, -⟩ := h
  -- a success would have made the entry
  have hno : ∀ {v'}, ¬ MakeOutcome maxDnum s.vol kind mode.toNat
      (tokens (dirname p.toCPath.bytes)) (basename p.toCPath.bytes) true v' := by
    intro v' hout
    obtain ⟨j', hborn⟩ := hout.born hI.sound
    rw [hP, hc] at hborn
    rw [hborn.fresh i hres] at hl
    exact absurd hl (by simp)
  cases kind with
  | dir =>
    have hcuts : MakeCuts s .dir p.toCPath mode.toNat
      (rufsMkdirLog s p.toCPath.bytes mode.toNat env) _ _ :=
        rufsMkdir_cut hI.mounted hI.sound (uint32_lt mode)
    obtain ⟨hneg, -⟩ | ⟨-, -, -, hout⟩ := hcuts
    · exact hneg
    · exact absurd hout hno
  | file =>
    have hcuts : MakeCuts s .file p.toCPath mode.toNat
      (rufsCreateLog s p.toCPath.bytes mode.toNat env) _ _ :=
        rufsCreate_cut hI.mounted hI.sound (uint32_lt mode)
    obtain ⟨hneg, -⟩ | ⟨-, -, -, hout⟩ := hcuts
    · exact hneg
    · exact absurd hout hno

/-- **A name whose inode was never written is lost.** No calls, kills and remounts that follow
make the path resolve, and `mkdir` and `create` of it keep failing. -/
theorem dead_name (h : Reachable crashSystem s) {p : TreePath} (hp : p.comps = P ++ [c])
    {dir : Inode} (hdir : node s (p.parent hp) = some dir) (hd : dir.isDir = true) {ino : ℕ}
    (hfind : (dirFind s dir.ino c).1 = some ino) (hino : (readi s ino).1 = none)
    (hr : Run (crashSystem.startAt s) as s') :
    node s' p = none ∧
      ∀ kind (mode : UInt32) env, makeCode s' kind p mode.toNat env < 0 := by
  have hI := crash_intact h
  have hparent : node s (p.parent hp) = (s.vol.resolve P).map s.vol.inode := by
    have hat := hI.nodeAt (p.parent hp).toCPath
    rwa [(p.parent hp).tokens_bytes] at hat
  rw [hparent] at hdir
  obtain ⟨i, hres, rfl⟩ := Option.map_eq_some_iff.mp hdir
  have hi := Vol.resolve_valid hI.sound.rooted hres
  have hdead : Dead s.vol P c := by
    refine ⟨i, ino, hres, hd, ?_, fun hv => ?_⟩
    · rwa [hI.sound.owned.ino_self i hi, dirFind_eq hI.mounted hI.sound.owned hi] at hfind
    · rw [(readi_eq_some hI.mounted).mpr ⟨hv, rfl⟩] at hino
      exact absurd hino (by simp)
  -- both are kept by every step
  have hlater : Intact s' ∧ Dead s'.vol P c := by
    refine hr.invariant (I := fun t => Intact t ∧ Dead t.vol P c) ?_ ?_
    · rintro t rfl
      exact ⟨hI, hdead⟩
    · rintro t a t' ⟨ht, htd⟩ hs
      refine ⟨?_, htd.step ht hs⟩
      obtain ⟨⟨call, -, hend⟩ | ⟨-, ht', -⟩, -⟩ := ht.step hs
      · exact hend.intact
      · exact ht'
  obtain ⟨hI', hdead'⟩ := hlater
  refine ⟨?_, fun kind mode env => hdead'.makeCode hI' hp kind mode env⟩
  have hat := hI'.nodeAt p.toCPath
  rw [p.tokens_bytes, hp, hdead'.resolve] at hat
  exact hat

/-- The kill has cost `/a`. -/
theorem dead_name_first : node (killed freshFs firstOp 3) treeA = none ∧
    ∀ kind (mode : UInt32) env,
      makeCode (killed freshFs firstOp 3) kind treeA mode.toNat env < 0 := by
  have hp : treeA.comps = [] ++ [[97]] := rfl
  have hroot : ((node (killed freshFs firstOp 3) (treeA.parent (c := [97]) (P := []) rfl)).map
      fun n => (n.ino, n.isDir)) = some (0, true) := by decide +kernel
  obtain ⟨dir, hdir, hkind⟩ := Option.map_eq_some_iff.mp hroot
  obtain ⟨hino, hd⟩ := Prod.mk.inj hkind
  have hfind : (dirFind (killed freshFs firstOp 3) dir.ino [97]).1 = some 1 := by
    rw [hino]
    decide +kernel
  have hnone : (readi (killed freshFs firstOp 3) 1).1 = none := by
    rw [← Option.isNone_iff_eq_none]
    decide +kernel
  have hrun : Run (crashSystem.startAt (killed freshFs firstOp 3)) [] (killed freshFs firstOp 3) := .start rfl
  exact dead_name firstKill_reachable hp hdir hd hfind hnone hrun

end Dead

end Rufs
